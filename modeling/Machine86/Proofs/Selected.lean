import Machine86.Proofs.Places
import Machine86.Proofs.Reported

/-!
# Only the selected bytes of the input matter

Two systems are twins at a place where they differ in the content of the file there and in nothing
else. A command is blind to a place if it brings the same result from twins and leaves twins behind.
Writes are blind, and so are reads of other places. The check reads one file, which is named after
the input and so lies at another place. Once the program is loaded, the whole command is blind to
the input: the bytes of the file outside of the program cannot come to light
(`perform_eq_of_loaded_eq`).
-/

namespace Machine86

/-- Two trees with the same nodes but for one place. There is a file at that place, in either tree
its own one still, or else the same one. -/
structure FileTree.Twins (place : List String) (f f' : List UInt8) (t t' : FileTree) : Prop where
  workingDir : t.workingDir = t'.workingDir
  elsewhere : ∀ q, q ≠ place → t.node? q = t'.node? q
  here : t.node? place = some (.file f) ∧ t'.node? place = some (.file f') ∨
    ∃ content, t.node? place = some (.file content) ∧ t'.node? place = some (.file content)

/-- Two systems with twin trees and the same assembler. -/
structure World.Twins (place : List String) (f f' : List UInt8) (w w' : World) : Prop where
  tree : w.tree.Twins place f f' w'.tree
  assembler : w.assembler = w'.assembler

namespace FileTree

variable {place : List String} {f f' : List UInt8} {t t' : FileTree} {path : String}

namespace Twins

theorem exists_file (h : t.Twins place f f' t') : ∃ content content',
    t.node? place = some (.file content) ∧ t'.node? place = some (.file content') := by
  rcases h.here with ⟨hf, hf'⟩ | ⟨content, hc, hc'⟩
  · exact ⟨f, f', hf, hf'⟩
  · exact ⟨content, content, hc, hc'⟩

theorem requireDirectory_eq (h : t.Twins place f f' t') (q : List String) :
    t.requireDirectory q = t'.requireDirectory q := by
  unfold requireDirectory
  by_cases hq : q = place
  · obtain ⟨content, content', hc, hc'⟩ := h.exists_file
    rw [hq, hc, hc']
  · rw [h.elsewhere q hq]

theorem enter_eq (h : t.Twins place f f' t') : t.enter = t'.enter := by
  funext q component
  rw [enter, enter, h.requireDirectory_eq]

theorem descend_eq (h : t.Twins place f f' t') : t.descend = t'.descend := by
  funext q components
  rw [descend, descend, h.enter_eq]

theorem origin_eq (h : t.Twins place f f' t') (path : String) : t.origin path = t'.origin path := by
  rw [origin, origin, h.workingDir]

theorem locate_eq (h : t.Twins place f f' t') (path : String) : t.locate path = t'.locate path := by
  rw [locate, locate, h.descend_eq, h.origin_eq]

theorem target_eq (h : t.Twins place f f' t') (path : String) : t.target path = t'.target path := by
  unfold target
  rw [h.descend_eq, h.origin_eq, h.enter_eq]
  simp only [h.requireDirectory_eq]

theorem read_eq (h : t.Twins place f f' t') (hpath : t.locate path ≠ .ok place) :
    t.read path = t'.read path := by
  rw [FileTree.read_eq, FileTree.read_eq, ← h.locate_eq]
  cases hlocate : t.locate path with
  | error e => rfl
  | ok q =>
    have hq : q ≠ place := by
      rintro rfl
      exact hpath hlocate
    show t.contentAt q = t'.contentAt q
    rw [contentAt, contentAt, h.elsewhere q hq]

theorem put (h : t.Twins place f f' t') {q : List String} (hq : q ≠ []) (content : List UInt8) :
    (t.put q (.file content)).Twins place f f' (t'.put q (.file content)) where
  workingDir := h.workingDir
  elsewhere p hp := by
    rw [node?_put hq, node?_put hq, h.elsewhere p hp]
  here := by
    rw [node?_put hq, node?_put hq]
    by_cases hplace : place = q
    · exact .inr ⟨content, if_pos hplace, if_pos hplace⟩
    · rw [if_neg hplace, if_neg hplace]
      exact h.here

theorem putFile (h : t.Twins place f f' t') (q : List String) (content : List UInt8) :
    (∃ e, t.putFile q content = .error e ∧ t'.putFile q content = .error e) ∨
      ∃ s s', t.putFile q content = .ok s ∧ t'.putFile q content = .ok s' ∧
        s.Twins place f f' s' := by
  unfold FileTree.putFile
  by_cases hq : q = place
  · subst hq
    obtain ⟨old, old', hold, hold'⟩ := h.exists_file
    have hne : q ≠ [] := by
      rintro rfl
      cases hold
    rw [hold, hold']
    exact .inr ⟨_, _, rfl, rfl, h.put hne content⟩
  · rw [← h.elsewhere q hq]
    rcases hnode : t.node? q with _ | _ | _ | _
    · exact .inr ⟨_, _, rfl, rfl, h.put (by rintro rfl; cases hnode) content⟩
    · exact .inl ⟨_, rfl, rfl⟩
    · exact .inr ⟨_, _, rfl, rfl, h.put (by rintro rfl; cases hnode) content⟩
    · exact .inr ⟨_, _, rfl, rfl, h⟩

/-- A write comes to the same in twins and leaves twins, also where it goes to the place itself. -/
theorem write (h : t.Twins place f f' t') (path : String) (content : List UInt8) :
    (∃ e, t.write path content = .error e ∧ t'.write path content = .error e) ∨
      ∃ s s', t.write path content = .ok s ∧ t'.write path content = .ok s' ∧
        s.Twins place f f' s' := by
  rw [write_eq, write_eq, ← h.target_eq]
  cases t.target path with
  | error e => exact .inl ⟨e, rfl, rfl⟩
  | ok q => exact h.putFile q content

end Twins

end FileTree

namespace World

variable {place : List String} {f f' : List UInt8} {α β : Type}

/-- A command that cannot tell twins apart: it brings the same result from both, and they are twins
after it. -/
def Blind (place : List String) (f f' : List UInt8) (x : StateM World α) : Prop :=
  ∀ w w' : World, w.Twins place f f' w' →
    ∃ a v v', x w = (a, v) ∧ x w' = (a, v') ∧ v.Twins place f f' v'

theorem blind_pure (a : α) : Blind place f f' (pure a) :=
  fun w w' h => ⟨a, w, w', rfl, rfl, h⟩

theorem Blind.bind {x : StateM World α} {g : α → StateM World β} (hx : Blind place f f' x)
    (hg : ∀ a, Blind place f f' (g a)) : Blind place f f' (x >>= g) := by
  intro w w' h
  obtain ⟨a, v, v', hv, hv', htwins⟩ := hx w w' h
  rw [bind_of_eq hv, bind_of_eq hv']
  exact hg a v v' htwins

theorem blind_writeFile (path : String) (content : List UInt8) :
    Blind place f f' (writeFile path content) := by
  intro w w' h
  unfold writeFile
  rcases h.tree.write path content with ⟨e, he, he'⟩ | ⟨s, s', hs, hs', htwins⟩
  · rw [he, he']
    exact ⟨_, _, _, rfl, rfl, h⟩
  · rw [hs, hs']
    exact ⟨_, _, _, rfl, rfl, htwins, h.assembler⟩

theorem blind_readFile {path : String} (hpath : ∀ t : FileTree, t.locate path ≠ .ok place) :
    Blind place f f' (Host.readFile path) := by
  intro w w' h
  refine ⟨w.tree.read path, w, w', rfl, ?_, h⟩
  rw [h.tree.read_eq (hpath w.tree)]
  rfl

theorem blind_assemble (source target : String) :
    Blind place f f' (assemble source target) := by
  intro w w' h
  unfold assemble
  rw [← h.assembler]
  rcases w.assembler with _ | ⟨_ | content, completion⟩
  · split_ifs <;> exact ⟨_, _, _, rfl, rfl, h⟩
  · dsimp only
    split_ifs <;> exact ⟨_, _, _, rfl, rfl, h⟩
  · dsimp only
    split_ifs
    · exact ⟨_, _, _, rfl, rfl, h⟩
    · exact ⟨_, _, _, rfl, rfl, h⟩
    · obtain ⟨_, v, v', hv, hv', htwins⟩ := blind_writeFile target content w w' h
      rw [hv, hv']
      exact ⟨_, _, _, rfl, rfl, htwins⟩

/-- The check writes its files, runs the assembler and reads the code that it made. That file has
another name than the input. -/
theorem blind_verifyListing {input : String}
    (hinput : ∀ name ∈ Path.fileName? input, place.getLast? = some name) (program : List UInt8)
    (asm dir : String) : Blind place f f' (verifyListing input program asm dir) := by
  unfold verifyListing
  cases hname : Path.fileName? input with
  | none => exact blind_pure _
  | some name =>
    have hslash : '/' ∉ (name ++ ".sim8086").toList := by
      simp [Path.slash_not_mem_fileName hname]
    have hlonger : ∀ other : String, other.length < name.length + 8 →
        name ++ ".sim8086" ≠ other := by
      have hsuffix : ".sim8086".length = 8 := rfl
      rintro _ hlength rfl
      rw [String.length_append, hsuffix] at hlength
      exact Nat.lt_irrefl _ hlength
    have hshort : ∀ n, n < 8 → n < name.length + 8 := by omega
    have hcode : ∀ t : FileTree, t.locate (codePath dir name) ≠ .ok place := by
      intro t hlocate
      have hlast := FileTree.getLast?_of_locate_join hlocate hslash
        (hlonger _ (hshort _ (by decide))) (hlonger _ (hshort _ (by decide)))
        (hlonger _ (hshort _ (by decide)))
      rw [hinput name hname, Option.some.injEq] at hlast
      exact hlonger name (by omega) hlast.symm
    refine (blind_writeFile _ _).bind fun written => ?_
    rcases written with cause | _
    · exact blind_pure _
    refine ((blind_assemble _ _).bind fun completed => ?_).bind fun assembled => ?_
    · rcases completed with cause | completion
      · exact blind_pure _
      · dsimp only
        split_ifs <;> exact blind_pure _
    rcases assembled with e | _
    · exact blind_pure _
    refine ((blind_readFile hcode).bind fun code => ?_).bind fun compared => ?_
    · cases code <;> exact blind_pure _
    · cases compared <;> exact blind_pure _

variable {o : Options} (hinput : ∀ name ∈ Path.fileName? o.input, place.getLast? = some name)

include hinput

theorem blind_check (program : List UInt8) (p : Progress) :
    Blind place f f' (o.check program p) := by
  unfold Options.check
  split_ifs
  · refine (blind_verifyListing hinput _ _ _).bind fun verified => ?_
    cases verified <;> exact blind_pure _
  · exact blind_pure _

/-- From the loaded program on, a command is blind to its input. -/
theorem blind_reportRun (program : List UInt8) (p : Progress) :
    Blind place f f' (o.reportRun program p) := by
  refine (blind_check hinput program p).bind fun check => ?_
  dsimp only
  refine Blind.bind ?_ fun emitted => ?_
  · unfold Options.emit
    cases o.out with
    | none => exact blind_pure _
    | some path =>
      refine (blind_writeFile _ _).bind fun written => ?_
      cases written <;> exact blind_pure _
  · cases emitted <;> exact blind_pure _

end World

/-- What is loaded of a file is the part of it that was asked for, where the file has that part. And
where two systems differ in nothing but the content of the input, and the same program is loaded
from both, the command ends alike in both, with the same verdict of a check, and it leaves them with
the same files but for that input, if it did not write there. -/
theorem perform_eq_of_loaded_eq :
    (∀ (w : World) (path : String) (file : List UInt8), w.tree.read path = .ok file →
      ∀ (skip : Nat) (len : Option Nat) (program : List UInt8),
        (loadProgram path skip len : StateM World _) w = (.ok program, w) ↔
          skip ≤ file.length ∧ (∀ n ∈ len, skip + n ≤ file.length) ∧
            program = (file.drop skip).take (len.getD file.length)) ∧
    ∀ (args : List String) (o : Options) (w w' : World) (place : List String)
      (f f' program : List UInt8), Invocation.ofArgs args = .run o →
      w.tree.locate o.input = .ok place → w.Twins place f f' w' →
      (loadProgram o.input o.skip o.len : StateM World _) w = (.ok program, w) →
      (loadProgram o.input o.skip o.len : StateM World _) w' = (.ok program, w') →
        (∃ outcome v v', ((Invocation.ofArgs args).perform : StateM World Outcome) w = (outcome, v) ∧
          ((Invocation.ofArgs args).perform : StateM World Outcome) w' = (outcome, v') ∧
          v.Twins place f f' v') ∧
        ∀ p, ∃ check v v', (o.check program p : StateM World Check) w = (check, v) ∧
          (o.check program p : StateM World Check) w' = (check, v') := by
  refine ⟨fun w path file hread skip len program => ?_, ?_⟩
  · rw [World.loadProgram_of_read hread, ← selectProgram_eq_ok_iff, Prod.mk.injEq, eq_self,
      and_true]
  · intro args o w w' place f f' program hargs hplace htwins hload hload'
    have hcommand : ((Invocation.ofArgs args).perform : StateM World Outcome) = o.execute := by
      rw [hargs]
      rfl
    obtain ⟨content, -, hfile, -⟩ := htwins.tree.exists_file
    have hinput : ∀ name ∈ Path.fileName? o.input, place.getLast? = some name :=
      fun name hname => FileTree.getLast?_of_locate hplace hfile hname
    refine ⟨?_, fun p => ?_⟩
    · rw [hcommand, Options.execute_of_loaded hload, Options.execute_of_loaded hload']
      cases Run.start program o.config defaultMinMemory with
      | error e => exact ⟨_, w, w', rfl, rfl, htwins⟩
      | ok r => exact World.blind_reportRun hinput program r.finish w w' htwins
    · obtain ⟨check, v, v', hv, hv', -⟩ := World.blind_check hinput program p w w' htwins
      exact ⟨check, v, v', hv, hv'⟩

/-- The system with that file, and an assembler that makes the same two bytes of every listing. -/
def worldAssembling (content : List UInt8) : World :=
  { worldWith content with assembler := some ⟨some [0x89, 0xd9], ⟨true, []⟩⟩ }

/-- The command that checks the bytes of that file behind the first. -/
def checkBehindFirst : Options :=
  ⟨"p.bin", { check := true }, 1, none, .text, none, "."⟩

theorem twins_worldAssembling (f f' : List UInt8) :
    (worldAssembling f).Twins ["p.bin"] f f' (worldAssembling f') := by
  refine ⟨⟨rfl, fun q hq => ?_, .inl ⟨rfl, rfl⟩⟩, rfl⟩
  rcases q with _ | ⟨first, rest⟩
  · rfl
  · have hother : (first :: rest == ["p.bin"]) = false := beq_false_of_ne hq
    simp [worldAssembling, worldWith, FileTree.node?, List.lookup_cons, hother]

theorem read_worldAssembling (f : List UInt8) : (worldAssembling f).tree.read "p.bin" = .ok f := rfl

/-- The check of a move behind one byte, which differs between the systems. -/
theorem perform_eq_of_loaded_eq_move :
    let w := worldAssembling [0xff, 0x89, 0xd9]
    let w' := worldAssembling [0x00, 0x89, 0xd9]
    let args := ["--check", "p.bin", "--skip=1"]
    ∃ outcome v v', ((Invocation.ofArgs args).perform : StateM World Outcome) w = (outcome, v) ∧
      ((Invocation.ofArgs args).perform : StateM World Outcome) w' = (outcome, v') ∧
      v.Twins ["p.bin"] [0xff, 0x89, 0xd9] [0x00, 0x89, 0xd9] v' := by
  intro w w' args
  have hargs : Invocation.ofArgs ["--check", "p.bin", "--skip=1"] = .run checkBehindFirst := by
    decide
  have hplace : (worldAssembling [0xff, 0x89, 0xd9]).tree.locate "p.bin" = .ok ["p.bin"] := by
    decide
  obtain ⟨hslice, hsame⟩ := perform_eq_of_loaded_eq
  have hload : ∀ first : UInt8,
      (loadProgram "p.bin" 1 none : StateM World _) (worldAssembling [first, 0x89, 0xd9]) =
        (.ok [0x89, 0xd9], worldAssembling [first, 0x89, 0xd9]) := by
    intro first
    exact (hslice _ _ _ (read_worldAssembling _) _ _ _).2 ⟨by simp, by simp, rfl⟩
  exact (hsame _ _ w w' _ _ _ _ hargs hplace (twins_worldAssembling _ _) (hload _) (hload _)).1

end Machine86
