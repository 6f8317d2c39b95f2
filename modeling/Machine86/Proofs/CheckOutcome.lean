import Machine86.Proofs.Selected

/-!
# How a check ends, and what it does to the files

A check comes to a verdict just where its listing can be written, an assembler is there and
succeeds, and there is code to be read behind it; the code that an assembler leaves when it fails
does not count. Two files are all that can change, the listing and the code. Both have other names
than the input, so it stays as it is (`verifyListing_outcome`).
-/

namespace Machine86

theorem Path.fileName?_join (dir : String) {name : String} (hslash : '/' ∉ name.toList)
    (hempty : name ≠ "") (hdot : name ≠ ".") (hdots : name ≠ "..") :
    fileName? (join dir name) = some name := by
  obtain ⟨init, hcomponents⟩ := exists_components_join dir hslash
  rw [fileName?_eq_some_iff, steps, hcomponents, List.filter_append,
    List.filter_cons_of_pos (by simp [hempty, hdot]), List.filter_nil, List.getLast?_concat]
  exact ⟨rfl, hdots⟩

namespace FileTree

variable {t t' t'' : FileTree} {path path' name name' : String} {content : List UInt8}
  {place q : List String}

/-- What lies behind the name of a file does not lead away from it. -/
theorem getLast?_of_descend {components : List String} (h : t.descend place components = .ok q)
    (hname : (components.filter fun c => c != "" && c != ".").getLast? = some name)
    (hdots : name ≠ "..") : q.getLast? = some name := by
  induction components using List.reverseRecOn generalizing q with
  | nil => cases hname
  | append_singleton init last ih =>
    obtain ⟨parent, hparent, hq⟩ := descend_concat_eq_ok_iff.1 h
    obtain ⟨-, -, rfl⟩ := enter_eq_ok_iff.1 hq
    rw [List.filter_append] at hname
    by_cases hstay : last = "" ∨ last = "."
    · rw [List.filter_cons_of_neg (by rcases hstay with rfl | rfl <;> decide), List.filter_nil,
        List.append_nil] at hname
      rw [stepFrom, if_pos hstay]
      exact ih hparent hname
    · rw [not_or] at hstay
      rw [List.filter_cons_of_pos (by simp [hstay]), List.filter_nil, List.getLast?_concat,
        Option.some.injEq] at hname
      subst hname
      rw [stepFrom_of_name hstay.1 hstay.2 hdots, List.getLast?_concat]

/-- A path leads to a place of the name that it ends with. -/
theorem getLast?_of_fileName (h : t.locate path = .ok place)
    (hname : Path.fileName? path = some name) : place.getLast? = some name := by
  obtain ⟨hlast, hdots⟩ := Path.fileName?_eq_some_iff.1 hname
  exact getLast?_of_descend (locate_eq_ok_iff.1 h).2 hlast hdots

/-- Two paths that lead to different places in every tree. -/
def Apart (path path' : String) : Prop :=
  path ≠ path' ∧ ∀ (t : FileTree) (place : List String), t.locate path = .ok place →
    t.locate path' ≠ .ok place

theorem apart_of_fileName (h : Path.fileName? path = some name)
    (h' : Path.fileName? path' = some name') (hne : name ≠ name') : Apart path path' := by
  refine ⟨?_, fun t place hplace hplace' => ?_⟩
  · rintro rfl
    rw [h, Option.some.injEq] at h'
    exact hne h'
  · have hlast := getLast?_of_fileName hplace h
    rw [getLast?_of_fileName hplace' h', Option.some.injEq] at hlast
    exact hne hlast.symm

/-- From one tree to the other nothing changes but the file at `path`, which gets the content that
there is. -/
structure Writes (path : String) (content : Option (List UInt8)) (t t' : FileTree) : Prop where
  changed : ∀ q, t'.node? q ≠ t.node? q →
    t'.locate path = .ok q ∧ ∃ c ∈ content, t'.node? q = some (.file c)
  kept : ∀ {p q}, t.locate p = .ok q → t'.locate p = .ok q

theorem writes_self (path : String) (content : Option (List UInt8)) (t : FileTree) :
    Writes path content t t :=
  ⟨fun _ h => absurd rfl h, id⟩

theorem writes_of_write (h : t.write path content = .ok t') :
    Writes path (some content) t t' := by
  obtain ⟨place, htarget, hnode, rfl⟩ := write_eq_ok_iff.1 h
  split_ifs with hsink
  · exact writes_self path (some content) t
  · have hplace : place ≠ [] := by
      rintro rfl
      exact hnode rfl
    have hkept : ∀ {p q}, t.locate p = .ok q →
        (t.put place (.file content)).locate p = .ok q := locate_put hplace hnode
    refine ⟨fun q hq => ?_, hkept⟩
    rw [node?_put hplace] at hq ⊢
    split_ifs at hq ⊢ with hhere
    · rw [hhere]
      exact ⟨hkept (locate_of_target htarget), content, rfl, rfl⟩
    · exact absurd rfl hq

namespace Writes

variable {written : Option (List UInt8)}

theorem node?_eq (h : Writes path written t t') (hapart : Apart path' path)
    (hplace : t.locate path' = .ok q) : t'.node? q = t.node? q := by
  by_contra hne
  exact hapart.2 t' q (h.kept hplace) (h.changed q hne).1

/-- What can be read at another path stays there. -/
theorem read (h : Writes path written t t') (hapart : Apart path' path)
    (hread : t.read path' = .ok content) : t'.read path' = .ok content := by
  obtain ⟨place, hplace, hnode⟩ := read_eq_ok_iff.1 hread
  refine read_eq_ok_iff.2 ⟨place, h.kept hplace, ?_⟩
  rw [h.node?_eq hapart hplace]
  exact hnode

end Writes

/-- A sink takes what is written to the path. -/
def LeadsToSink (t : FileTree) (path : String) : Prop :=
  ∃ place, t.locate path = .ok place ∧ t.node? place = some .sink

theorem LeadsToSink.of_writes {written : Option (List UInt8)} (hsink : t.LeadsToSink path')
    (h : Writes path written t t') (hapart : Apart path' path) : t'.LeadsToSink path' := by
  obtain ⟨place, hplace, hnode⟩ := hsink
  exact ⟨place, h.kept hplace, by rw [h.node?_eq hapart hplace, hnode]⟩

end FileTree

/-- The path of the listing is that of the code and four letters more. -/
theorem listingPath_eq (dir name : String) : listingPath dir name = codePath dir name ++ ".asm" := by
  have hname : name ++ ".sim8086.asm" = name ++ ".sim8086" ++ ".asm" := by
    rw [String.append_assoc]
    rfl
  have hne : (name ++ ".sim8086").toList ≠ [] := by simp
  have habsolute : Path.isAbsolute (name ++ ".sim8086" ++ ".asm") =
      Path.isAbsolute (name ++ ".sim8086") := by
    rw [Path.isAbsolute, Path.isAbsolute, String.toList_append, List.head?_append_of_ne_nil _ hne]
  rw [listingPath, codePath, Path.join, Path.join, hname, habsolute]
  split_ifs <;> simp only [String.append_assoc]

section Paths

variable {input name : String} (hname : Path.fileName? input = some name) (dir : String)

include hname

theorem fileName?_join_append {suffix : String} (hslash : '/' ∉ suffix.toList)
    (hlong : 3 ≤ suffix.length) :
    Path.fileName? (Path.join dir (name ++ suffix)) = some (name ++ suffix) := by
  have hlonger : ∀ other : String, other.length < 3 → name ++ suffix ≠ other := by
    rintro _ hlength rfl
    rw [String.length_append] at hlength
    omega
  refine Path.fileName?_join dir ?_ (hlonger _ (by decide)) (hlonger _ (by decide))
    (hlonger _ (by decide))
  rw [String.toList_append, List.mem_append, not_or]
  exact ⟨Path.slash_not_mem_fileName hname, hslash⟩

/-- The input, the listing and the code have three names. -/
theorem apart_paths :
    FileTree.Apart input (listingPath dir name) ∧ FileTree.Apart input (codePath dir name) ∧
      FileTree.Apart (listingPath dir name) (codePath dir name) := by
  have hlisting : Path.fileName? (listingPath dir name) = some (name ++ ".sim8086.asm") :=
    fileName?_join_append hname dir (by decide) (by decide)
  have hcode : Path.fileName? (codePath dir name) = some (name ++ ".sim8086") :=
    fileName?_join_append hname dir (by decide) (by decide)
  have hne : ∀ suffix : String, suffix ≠ "" → name ≠ name ++ suffix := by
    intro suffix hsuffix h
    exact hsuffix (String.append_right_inj name |>.1 (by rw [← h, String.append_empty]))
  refine ⟨FileTree.apart_of_fileName hname hlisting (hne _ (by decide)),
    FileTree.apart_of_fileName hname hcode (hne _ (by decide)),
    FileTree.apart_of_fileName hlisting hcode fun h => ?_⟩
  rw [String.append_right_inj] at h
  exact absurd h (by decide)

end Paths

namespace World

variable {w : World} {source target suffix : String}

/-- The bytes that the assembler writes, if there is one and it writes any. -/
def assembled? (w : World) : Option (List UInt8) := w.assembler.bind Assembler.output

/-- The system after the assembler has put what it makes at `target`. -/
def afterAssembling (w : World) (target : String) : World :=
  match w.assembled? with
  | none => w
  | some content => (writeFile target content w).2

theorem writes_afterAssembling (w : World) (target : String) :
    FileTree.Writes target w.assembled? w.tree (w.afterAssembling target).tree := by
  unfold afterAssembling
  cases w.assembled? with
  | none => exact FileTree.writes_self target none w.tree
  | some content =>
    dsimp only
    rw [writeFile]
    cases hwrite : w.tree.write target content with
    | ok t => exact FileTree.writes_of_write hwrite
    | error e => exact FileTree.writes_self _ _ _

/-- Where a file can have a longer name, nothing keeps the assembler from being run. -/
theorem assemble_of_checkPath (h : FileTree.checkPath source = .ok ())
    (hsource : source = target ++ suffix) :
    assemble source target w =
      (match w.assembler with
        | none => .error .notFound
        | some a => .ok a.completion, w.afterAssembling target) := by
  obtain ⟨hnul, -, hlong⟩ := FileTree.checkPath_eq_ok_iff.1 h
  have hnul' : Path.hasNul target = false := by
    rw [Path.hasNul, List.contains_eq_mem, decide_eq_false_iff_not] at hnul ⊢
    rw [hsource, String.toList_append, List.mem_append, not_or] at hnul
    exact hnul.1
  have hsize : ¬ maxArgumentSize < max source.utf8ByteSize target.utf8ByteSize := by
    have htarget : source.utf8ByteSize = target.utf8ByteSize + suffix.utf8ByteSize := by
      rw [hsource, String.utf8ByteSize_append]
    rw [Path.isTooLong, decide_eq_false_iff_not, Path.maxPathSize] at hlong
    rw [maxArgumentSize]
    omega
  rw [assemble, hnul, hnul', Bool.or_self, if_neg Bool.false_ne_true, afterAssembling, assembled?]
  cases w.assembler with
  | none => rfl
  | some a =>
    dsimp only [Option.bind_some]
    rw [if_neg hsize]
    cases a.output <;> rfl

theorem assembleSource_of_checkPath (h : FileTree.checkPath source = .ok ())
    (hsource : source = target ++ suffix) :
    (assembleSource source target : StateM World _) w =
      (match w.assembler with
        | none => .error (.noAssembler .notFound)
        | some a =>
          if a.completion.succeeded then .ok ()
          else .error (.assemblerFailed source a.completion.errorOutput),
      w.afterAssembling target) := by
  have hassemble : (Host.assemble source target : StateM World _) w = _ :=
    assemble_of_checkPath h hsource
  rw [assembleSource, bind_of_eq hassemble]
  cases w.assembler with
  | none => rfl
  | some a =>
    dsimp only
    split_ifs <;> rfl

theorem compareCode_eq (program : List UInt8) (path : String) (w : World) :
    (compareCode program path : StateM World _) w =
      (match w.tree.read path with
        | .error cause => .error (.unreadable path cause)
        | .ok code => .ok (if code = program then .same else .differs), w) := by
  have hread : (Host.readFile path : StateM World _) w = (w.tree.read path, w) := rfl
  rw [compareCode, bind_of_eq hread]
  cases w.tree.read path <;> rfl

end World

/-- How a check ends whose input has this name, and what it makes of the system. -/
structure CheckOutcome (input name : String) (program : List UInt8) (asm dir : String) (w : World)
    (result : Except CheckError Verification) (w' : World) : Prop where
  verdict : ∀ v, result = .ok v ↔
    (∃ t, w.tree.write (listingPath dir name) (Utf8.encode asm) = .ok t) ∧
    (∃ a, w.assembler = some a ∧ a.completion.succeeded = true) ∧
    ∃ code, w'.tree.read (codePath dir name) = .ok code ∧
      v = ⟨listingPath dir name, codePath dir name, if code = program then .same else .differs⟩
  unwritable : ∀ cause,
    w.tree.write (listingPath dir name) (Utf8.encode asm) = .error cause →
      result = .error (.unwritable (listingPath dir name) cause) ∧ w' = w
  noAssembler : ∀ t, w.tree.write (listingPath dir name) (Utf8.encode asm) = .ok t →
    w.assembler = none → result = .error (.noAssembler .notFound)
  /-- Whatever the assembler has written. -/
  failed : ∀ t a, w.tree.write (listingPath dir name) (Utf8.encode asm) = .ok t →
    w.assembler = some a → a.completion.succeeded = false →
      result = .error (.assemblerFailed (listingPath dir name) a.completion.errorOutput)
  unreadable : ∀ t a cause, w.tree.write (listingPath dir name) (Utf8.encode asm) = .ok t →
    w.assembler = some a → a.completion.succeeded = true →
      w'.tree.read (codePath dir name) = .error cause →
        result = .error (.unreadable (codePath dir name) cause)
  changed : ∀ q, w'.tree.node? q ≠ w.tree.node? q →
    w'.tree.locate (listingPath dir name) = .ok q ∧
        w'.tree.node? q = some (.file (Utf8.encode asm)) ∨
      w'.tree.locate (codePath dir name) = .ok q ∧
        ∃ code ∈ w.assembled?, w'.tree.node? q = some (.file code)
  listing : ∀ t, w.tree.write (listingPath dir name) (Utf8.encode asm) = .ok t →
    w'.tree.read (listingPath dir name) = .ok (Utf8.encode asm) ∨
      w'.tree.LeadsToSink (listingPath dir name)
  kept : ∀ file, w.tree.read input = .ok file → w'.tree.read input = .ok file
  apart : FileTree.Apart input (listingPath dir name) ∧
    FileTree.Apart input (codePath dir name) ∧
    FileTree.Apart (listingPath dir name) (codePath dir name)

theorem FileTree.read_or_leadsToSink_of_write {t t' : FileTree} {path : String}
    {content : List UInt8} (h : t.write path content = .ok t') :
    t'.read path = .ok content ∨ t'.LeadsToSink path := by
  obtain hread | ⟨rfl, hsink⟩ := read_of_write h
  · exact .inl hread
  · exact .inr hsink

section Outcome

variable {input name : String} {asm dir : String} {w : World}
  (hname : Path.fileName? input = some name)

include hname

theorem verifyListing_of_unwritable (program : List UInt8) {cause : HostError}
    (hwrite : w.tree.write (listingPath dir name) (Utf8.encode asm) = .error cause) :
    (verifyListing input program asm dir : StateM World _) w =
      (.error (.unwritable (listingPath dir name) cause), w) := by
  have hfile : (Host.writeFile (listingPath dir name) (Utf8.encode asm) : StateM World _) w =
      (.error cause, w) := by
    simp only [Host.writeFile, World.writeFile, hwrite]
  rw [verifyListing, hname]
  dsimp only
  rw [World.bind_of_eq hfile]
  rfl

/-- A check that cannot write its listing changes nothing. -/
theorem checkOutcome_of_unwritable (program : List UInt8) {cause : HostError}
    (hwrite : w.tree.write (listingPath dir name) (Utf8.encode asm) = .error cause) :
    CheckOutcome input name program asm dir w
      (.error (.unwritable (listingPath dir name) cause)) w where
  verdict v := by simp [hwrite]
  unwritable cause' h := by
    rw [hwrite, Except.error.injEq] at h
    rw [h]
    exact ⟨rfl, rfl⟩
  noAssembler t h := by simp [hwrite] at h
  failed t a h := by simp [hwrite] at h
  unreadable t a cause h := by simp [hwrite] at h
  changed q h := absurd rfl h
  listing t h := by simp [hwrite] at h
  kept file h := h
  apart := apart_paths hname dir

variable {t : FileTree}
  (hwrite : w.tree.write (listingPath dir name) (Utf8.encode asm) = .ok t)

include hwrite

/-- The check behind its first write. -/
theorem verifyListing_of_written (program : List UInt8) :
    let w' := World.afterAssembling { w with tree := t } (codePath dir name)
    (verifyListing input program asm dir : StateM World _) w =
      (match w.assembler with
        | none => .error (.noAssembler .notFound)
        | some a =>
          if a.completion.succeeded then
            match w'.tree.read (codePath dir name) with
            | .error cause => .error (.unreadable (codePath dir name) cause)
            | .ok code => .ok ⟨listingPath dir name, codePath dir name,
                if code = program then .same else .differs⟩
          else .error (.assemblerFailed (listingPath dir name) a.completion.errorOutput),
      w') := by
  dsimp only
  have hfile : (Host.writeFile (listingPath dir name) (Utf8.encode asm) : StateM World _) w =
      (.ok (), { w with tree := t }) := by
    simp only [Host.writeFile, World.writeFile, hwrite]
  obtain ⟨place, htarget, -⟩ := FileTree.write_eq_ok_iff.1 hwrite
  have hassembled := World.assembleSource_of_checkPath (w := { w with tree := t })
    (FileTree.exists_of_target htarget).1 (listingPath_eq dir name)
  rw [verifyListing, hname]
  dsimp only
  rw [World.bind_of_eq hfile]
  dsimp only
  rw [World.bind_of_eq hassembled]
  generalize World.afterAssembling { w with tree := t } (codePath dir name) = w'
  cases w.assembler with
  | none => rfl
  | some a =>
    dsimp only
    split_ifs
    · dsimp only
      rw [World.bind_of_eq (World.compareCode_eq program (codePath dir name) _)]
      cases w'.tree.read (codePath dir name) <;> rfl
    · rfl

/-- What the assembler writes leaves the listing and the input alone. -/
theorem checkOutcome_of_written (program : List UInt8) :
    let result : Except CheckError Verification × World :=
      (verifyListing input program asm dir : StateM World _) w
    CheckOutcome input name program asm dir w result.1 result.2 := by
  obtain ⟨hlistingInput, hcodeInput, hlistingCode⟩ := apart_paths hname dir
  have hwritten := FileTree.writes_of_write hwrite
  have hassembled := World.writes_afterAssembling { w with tree := t } (codePath dir name)
  rw [verifyListing_of_written hname hwrite]
  generalize World.afterAssembling { w with tree := t } (codePath dir name) = w' at hassembled
  refine ⟨fun v => ?_, ?_, fun t' _ hnone => ?_, fun t' a _ ha hfailed => ?_,
    fun t' a cause _ ha hsucceeded hcause => ?_, fun q hq => ?_, fun t' _ => ?_,
    fun file hfile => ?_, hlistingInput, hcodeInput, hlistingCode⟩
  · cases w.assembler with
    | none => simp
    | some a =>
      cases hsucceeded : a.completion.succeeded with
      | false => simp [hsucceeded]
      | true =>
        cases w'.tree.read (codePath dir name) with
        | error cause => simp [hsucceeded]
        | ok code => simp [hwrite, hsucceeded, @eq_comm _ v]
  · simp [hwrite]
  · simp [hnone]
  · simp [ha, hfailed]
  · simp [ha, hsucceeded, hcause]
  · by_cases hcode : w'.tree.node? q = t.node? q
    · rw [hcode] at hq
      obtain ⟨hlocate, _, ⟨⟩, hnode⟩ := hwritten.changed q hq
      exact .inl ⟨hassembled.kept hlocate, hcode.trans hnode⟩
    · exact .inr (hassembled.changed q hcode)
  · obtain hread | hsink := FileTree.read_or_leadsToSink_of_write hwrite
    · exact .inl (hassembled.read hlistingCode hread)
    · exact .inr (hsink.of_writes hassembled hlistingCode)
  · exact hassembled.read hcodeInput (hwritten.read hlistingInput hfile)

end Outcome

/-- Every check ends so: without a name of the input it does nothing, and else it has one of these
outcomes. -/
theorem verifyListing_outcome (input : String) (program : List UInt8) (asm dir : String)
    (w : World) :
    ∃ result w', (verifyListing input program asm dir : StateM World _) w = (result, w') ∧
      (Path.fileName? input = none → result = .error (.noFileName input) ∧ w' = w) ∧
      ∀ name, Path.fileName? input = some name →
        CheckOutcome input name program asm dir w result w' := by
  cases hname : Path.fileName? input with
  | none =>
    refine ⟨.error (.noFileName input), w, ?_, fun _ => ⟨rfl, rfl⟩, nofun⟩
    rw [verifyListing, hname]
    rfl
  | some name =>
    cases hwrite : w.tree.write (listingPath dir name) (Utf8.encode asm) with
    | error cause =>
      refine ⟨_, _, verifyListing_of_unwritable hname program hwrite, nofun, ?_⟩
      rintro _ ⟨⟩
      exact checkOutcome_of_unwritable hname program hwrite
    | ok t =>
      refine ⟨_, _, rfl, nofun, ?_⟩
      rintro _ ⟨⟩
      exact checkOutcome_of_written hname hwrite program

/-- An assembler that fails, and leaves the code of the program nevertheless. -/
theorem verifyListing_outcome_failing :
    let program : List UInt8 := [0x89, 0xd9]
    let w : World := { worldWith program with assembler := some ⟨some program, ⟨false, []⟩⟩ }
    ∃ w', (verifyListing "p.bin" program "bits 16\n" "." : StateM World _) w =
        (.error (.assemblerFailed "./p.bin.sim8086.asm" []), w') ∧
      w'.tree.read "./p.bin.sim8086" = .ok program ∧ w'.tree.read "p.bin" = .ok program := by
  intro program w
  obtain ⟨result, w', hcheck, -, houtcome⟩ :=
    verifyListing_outcome "p.bin" program "bits 16\n" "." w
  have outcome := houtcome "p.bin" (by decide)
  obtain ⟨t, hwrite⟩ :
      ∃ t, w.tree.write (listingPath "." "p.bin") (Utf8.encode "bits 16\n") = .ok t := ⟨_, rfl⟩
  have hresult : result = .error (.assemblerFailed "./p.bin.sim8086.asm" []) :=
    outcome.failed t _ hwrite rfl rfl
  have hw' : w' = ((verifyListing "p.bin" program "bits 16\n" "." : StateM World _) w).2 :=
    (congrArg Prod.snd hcheck).symm
  have hcode : w'.tree.read "./p.bin.sim8086" = .ok program := by
    rw [hw']
    rfl
  exact ⟨w', by rw [hcheck, hresult], hcode, outcome.kept _ rfl⟩

end Machine86
