import Mathlib.Tactic.SplitIfs
import Machine86.Files.Tree

/-!
# Places in a tree of files

A path leads from the root or from the working directory through directories to a place, and a file
is read there (`FileTree.locate`, `FileTree.read_eq_ok_iff`). A write goes to the same place, behind
the same directories (`FileTree.target`, `FileTree.locate_of_target`), and changes nothing at any
other. So what was written is read again, unless a sink took it (`FileTree.read_of_write`).
-/

namespace Machine86

theorem except_bind_eq_ok_iff {ε α β : Type} {x : Except ε α} {f : α → Except ε β} {b : β} :
    (x >>= f) = .ok b ↔ ∃ a, x = .ok a ∧ f a = .ok b := by
  cases x <;> simp [bind, Except.bind]

theorem not_mem_of_mem_splitOn {α : Type} [DecidableEq α] {a : α} {xs piece : List α}
    (h : piece ∈ xs.splitOn a) : a ∉ piece := by
  induction xs generalizing piece with
  | nil =>
    rw [List.splitOn_nil, List.mem_singleton] at h
    simp [h]
  | cons x xs ih =>
    rw [List.splitOn_cons_eq_if_modifyHead] at h
    split_ifs at h with hx
    · rcases List.mem_cons.1 h with rfl | h
      · simp
      · exact ih h
    · obtain ⟨first, rest, hsplit⟩ := List.exists_cons_of_ne_nil (List.splitOn_ne_nil a xs)
      rw [hsplit, List.modifyHead_cons] at h
      rw [hsplit] at ih
      rcases List.mem_cons.1 h with rfl | h
      · rw [beq_iff_eq] at hx
        exact List.not_mem_cons_of_ne_of_not_mem (Ne.symm hx) (ih List.mem_cons_self)
      · exact ih (List.mem_cons_of_mem first h)

theorem lookup_filter_of_ne {α β : Type} [BEq α] [LawfulBEq α] {a b : α} (h : a ≠ b)
    (entries : List (α × β)) : (entries.filter (·.1 != b)).lookup a = entries.lookup a := by
  induction entries with
  | nil => rfl
  | cons e entries ih =>
    obtain ⟨key, value⟩ := e
    cases hkey : key == b with
    | true =>
      have hne : (a == key) = false := beq_false_of_ne (eq_of_beq hkey ▸ h)
      rw [List.filter_cons_of_neg (by simp [bne, hkey]), ih, List.lookup_cons, hne]
    | false =>
      rw [List.filter_cons_of_pos (by simp [bne, hkey]), List.lookup_cons, List.lookup_cons, ih]

namespace Path

theorem slash_not_mem {path component : String} (h : component ∈ components path) :
    '/' ∉ component.toList := by
  obtain ⟨piece, hpiece, rfl⟩ := List.mem_map.1 h
  rw [String.toList_ofList]
  exact not_mem_of_mem_splitOn hpiece

/-- The components of a path are those before the last one, and the last one. -/
theorem exists_components (path : String) : ∃ init last, components path = init ++ [last] := by
  have hne : components path ≠ [] := by
    rw [components, Ne, List.map_eq_nil_iff]
    exact List.splitOn_ne_nil _ _
  exact ⟨_, _, (List.dropLast_concat_getLast hne).symm⟩

theorem toList_eq_intercalate (path : String) :
    path.toList = ['/'].intercalate ((components path).map String.toList) := by
  have hpieces : (components path).map String.toList = path.toList.splitOn '/' := by
    simp [components, Function.comp_def]
  rw [hpieces, List.intercalate_splitOn]

theorem intercalate_concat {α : Type} (separator last : List α) {pieces : List (List α)}
    (h : pieces ≠ []) : separator.intercalate (pieces ++ [last]) =
      separator.intercalate pieces ++ separator ++ last := by
  induction pieces with
  | nil => exact absurd rfl h
  | cons piece pieces ih =>
    cases pieces with
    | nil => simp [List.intercalate_cons_cons]
    | cons next pieces =>
      rw [List.cons_append, List.cons_append, List.intercalate_cons_cons, ← List.cons_append,
        ih (by simp), List.intercalate_cons_cons]
      simp only [List.append_assoc]

/-- Where the last component is empty, there is a slash before it or nothing at all. -/
theorem getLast?_of_components {path : String} {init : List String}
    (h : components path = init ++ [""]) : path = "" ∨ path.toList.getLast? = some '/' := by
  have htext := toList_eq_intercalate path
  rw [h, List.map_append, List.map_singleton, String.toList_empty] at htext
  cases init with
  | nil => exact .inl (String.toList_inj.1 (by simpa using htext))
  | cons first init =>
    rw [intercalate_concat _ _ (by simp), List.append_nil] at htext
    exact .inr (by rw [htext, List.getLast?_concat])

theorem fileName?_eq_some_iff {path name : String} :
    fileName? path = some name ↔ (steps path).getLast? = some name ∧ name ≠ ".." := by
  unfold fileName?
  split
  · rename_i h
    refine ⟨nofun, ?_⟩
    rintro ⟨hname, hne⟩
    rw [h, Option.some.injEq] at hname
    exact absurd hname.symm hne
  · rename_i h
    refine ⟨fun hname => ⟨hname, ?_⟩, And.left⟩
    rintro rfl
    exact h hname

theorem slash_not_mem_fileName {path name : String} (h : fileName? path = some name) :
    '/' ∉ name.toList := by
  have hstep : name ∈ steps path := List.mem_of_getLast? (fileName?_eq_some_iff.1 h).1
  exact slash_not_mem (List.mem_filter.1 hstep).1

theorem components_of_not_mem {name : String} (h : '/' ∉ name.toList) :
    components name = [name] := by
  rw [components, List.splitOn_eq_singleton h]
  simp

theorem components_append_slash (dir name : String) :
    components (dir ++ "/" ++ name) = components dir ++ components name := by
  have htext : (dir ++ "/" ++ name).toList = dir.toList ++ '/' :: name.toList := by simp
  rw [components, htext, List.splitOn_append_cons_self, List.map_append]
  rfl

/-- The last component of a name as seen from a directory is the name. -/
theorem exists_components_join (dir : String) {name : String} (h : '/' ∉ name.toList) :
    ∃ init, components (join dir name) = init ++ [name] := by
  have hname := components_of_not_mem h
  unfold join
  split_ifs with halone hslash
  · exact ⟨[], hname⟩
  · rw [beq_iff_eq] at hslash
    obtain ⟨front, hfront⟩ := List.getLast?_eq_some_iff.1 hslash
    have hdir : dir = String.ofList front ++ "/" := by
      rw [← String.toList_inj, hfront]
      simp
    rw [hdir, components_append_slash, hname]
    exact ⟨_, rfl⟩
  · rw [components_append_slash, hname]
    exact ⟨_, rfl⟩

end Path

namespace FileTree

variable {t : FileTree} {path : String} {place q : List String} {content : List UInt8}

/-- The place that a path leads to. -/
def locate (t : FileTree) (path : String) : Except HostError (List String) := do
  checkPath path
  t.descend (t.origin path) (Path.components path)

/-- The place where a write to a path puts its file. -/
def target (t : FileTree) (path : String) : Except HostError (List String) := do
  checkPath path
  let parts := (Path.components path).filter (· != "")
  match parts.getLast? with
  | none => .error .isDirectory
  | some name =>
    let parent ← t.descend (t.origin path) parts.dropLast
    t.requireDirectory parent
    if namesFile path name then t.enter parent name else .error .isDirectory

theorem write_eq (t : FileTree) (path : String) (content : List UInt8) :
    t.write path content = t.target path >>= (t.putFile · content) := by
  unfold write target
  rw [bind_assoc]
  refine bind_congr fun _ => ?_
  dsimp only
  cases ((Path.components path).filter (· != "")).getLast? with
  | none => rfl
  | some name =>
    simp only [bind_assoc]
    refine bind_congr fun parent => bind_congr fun _ => ?_
    split_ifs <;> rfl

/-- What there is to read at a place. -/
def contentAt (t : FileTree) (place : List String) : Except HostError (List UInt8) :=
  match t.node? place with
  | none => .error .notFound
  | some .directory => .error .isDirectory
  | some (.file content) => .ok content
  | some .sink => .ok []

theorem read_eq (t : FileTree) (path : String) :
    t.read path = t.locate path >>= t.contentAt := by
  rw [read, locate, bind_assoc]
  rfl

theorem read_eq_ok_iff : t.read path = .ok content ↔
    ∃ place, t.locate path = .ok place ∧
      (t.node? place = some (.file content) ∨ t.node? place = some .sink ∧ content = []) := by
  rw [read_eq, except_bind_eq_ok_iff]
  refine exists_congr fun place => and_congr_right fun _ => ?_
  unfold contentAt
  rcases t.node? place with _ | _ | _ | _ <;> simp [eq_comm]

theorem requireDirectory_eq_ok_iff {u : Unit} :
    t.requireDirectory place = .ok u ↔ t.node? place = some .directory := by
  unfold requireDirectory
  split <;> simp_all

theorem enter_eq_ok_iff {component : String} :
    t.enter place component = .ok q ↔ t.node? place = some .directory ∧
      Path.isLongName component = false ∧ q = stepFrom place component := by
  unfold enter
  simp only [except_bind_eq_ok_iff, requireDirectory_eq_ok_iff, exists_and_left, exists_const]
  refine and_congr_right fun _ => ?_
  split_ifs with hlong
  · simp [hlong]
  · simp [hlong, pure, Except.pure, eq_comm]

theorem descend_cons_eq_ok_iff {component : String} {rest : List String} :
    t.descend place (component :: rest) = .ok q ↔
      ∃ next, t.enter place component = .ok next ∧ t.descend next rest = .ok q := by
  rw [descend, List.foldlM_cons, except_bind_eq_ok_iff]
  rfl

theorem descend_concat_eq_ok_iff {init : List String} {last : String} :
    t.descend place (init ++ [last]) = .ok q ↔
      ∃ parent, t.descend place init = .ok parent ∧ t.enter parent last = .ok q := by
  rw [descend, List.foldlM_append, except_bind_eq_ok_iff]
  simp only [List.foldlM_cons, List.foldlM_nil, bind_pure]
  rfl

/-- The way to a directory starts at one. -/
theorem directory_of_descend {components : List String} (h : t.descend place components = .ok q)
    (hq : t.node? q = some .directory) : t.node? place = some .directory := by
  cases components with
  | nil =>
    cases h
    exact hq
  | cons component rest =>
    obtain ⟨next, hnext, -⟩ := descend_cons_eq_ok_iff.1 h
    exact (enter_eq_ok_iff.1 hnext).1

/-- An empty component does not lead away from a directory. -/
theorem descend_of_filter {components : List String}
    (h : t.descend place (components.filter (· != "")) = .ok q)
    (hq : t.node? q = some .directory) : t.descend place components = .ok q := by
  induction components generalizing place with
  | nil => exact h
  | cons component rest ih =>
    rw [descend_cons_eq_ok_iff]
    by_cases hempty : component = ""
    · rw [hempty, List.filter_cons_of_neg (by simp)] at h
      refine ⟨place, ?_, ih h⟩
      rw [hempty, enter_eq_ok_iff]
      exact ⟨directory_of_descend h hq, by decide, by simp [stepFrom]⟩
    · rw [List.filter_cons_of_pos (by simp [hempty]), descend_cons_eq_ok_iff] at h
      obtain ⟨next, hnext, hrest⟩ := h
      exact ⟨next, hnext, ih hrest⟩

theorem checkPath_eq_ok_iff {u : Unit} : checkPath path = .ok u ↔
    Path.hasNul path = false ∧ path ≠ "" ∧ Path.isTooLong path = false := by
  unfold checkPath
  split_ifs <;> simp_all

/-- A write goes to a place with a name of its own, in a directory. -/
theorem exists_of_target (h : t.target path = .ok place) : checkPath path = .ok () ∧
    ∃ init name parent, Path.components path = init ++ [name] ∧ name ≠ "" ∧ name ≠ "." ∧
      name ≠ ".." ∧ t.descend (t.origin path) init = .ok parent ∧
      t.enter parent name = .ok place := by
  rw [target, except_bind_eq_ok_iff] at h
  obtain ⟨_, hcheck, h⟩ := h
  obtain ⟨init, last, hcomponents⟩ := Path.exists_components path
  dsimp only at h
  split at h
  · cases h
  · rename_i name hname
    simp only [except_bind_eq_ok_iff, requireDirectory_eq_ok_iff] at h
    obtain ⟨parent, hparent, -, hdirectory, h⟩ := h
    split_ifs at h with hnames
    rw [namesFile, Bool.and_eq_true, Bool.and_eq_true, bne_iff_ne, bne_iff_ne, bne_iff_ne] at hnames
    have hlast : last ≠ "" := by
      rintro rfl
      rcases Path.getLast?_of_components hcomponents with hpath | hslash
      · exact (checkPath_eq_ok_iff.1 hcheck).2.1 hpath
      · exact hnames.2 hslash
    rw [hcomponents, List.filter_append, List.filter_cons_of_pos (by simpa using hlast),
      List.filter_nil] at hname hparent
    rw [List.getLast?_concat, Option.some.injEq] at hname
    rw [List.dropLast_concat] at hparent
    subst hname
    exact ⟨hcheck, init, last, parent, hcomponents, hlast, hnames.1.1, hnames.1.2,
      descend_of_filter hparent hdirectory, h⟩

theorem locate_eq_ok_iff : t.locate path = .ok place ↔ checkPath path = .ok () ∧
    t.descend (t.origin path) (Path.components path) = .ok place := by
  rw [locate, except_bind_eq_ok_iff]
  exact ⟨fun ⟨_, h⟩ => h, fun h => ⟨(), h⟩⟩

/-- The place that a write goes to is the one that the path leads to. -/
theorem locate_of_target (h : t.target path = .ok place) : t.locate path = .ok place := by
  obtain ⟨hcheck, init, name, parent, hcomponents, -, -, -, hparent, hplace⟩ := exists_of_target h
  rw [locate_eq_ok_iff, hcomponents, descend_concat_eq_ok_iff]
  exact ⟨hcheck, parent, hparent, hplace⟩

theorem stepFrom_of_name {name : String} (hempty : name ≠ "") (hdot : name ≠ ".")
    (hdots : name ≠ "..") : stepFrom place name = place ++ [name] := by
  rw [stepFrom, if_neg (by simp [hempty, hdot]), if_neg hdots]

/-- The name of a file that a path leads to is the last component of its place. -/
theorem getLast?_of_locate {name : String} (h : t.locate path = .ok place)
    (hnode : t.node? place = some (.file content)) (hname : Path.fileName? path = some name) :
    place.getLast? = some name := by
  obtain ⟨init, last, hcomponents⟩ := Path.exists_components path
  obtain ⟨-, hdescend⟩ := locate_eq_ok_iff.1 h
  rw [hcomponents, descend_concat_eq_ok_iff] at hdescend
  obtain ⟨parent, -, hplace⟩ := hdescend
  obtain ⟨hparent, -, hplace⟩ := enter_eq_ok_iff.1 hplace
  have hstay : ¬ (last = "" ∨ last = ".") := by
    intro hstay
    rw [stepFrom, if_pos hstay] at hplace
    rw [hplace, hparent] at hnode
    cases hnode
  rw [not_or] at hstay
  obtain ⟨hlast, hdots⟩ := Path.fileName?_eq_some_iff.1 hname
  rw [Path.steps, hcomponents, List.filter_append, List.filter_cons_of_pos (by simp [hstay]),
    List.filter_nil, List.getLast?_concat, Option.some.injEq] at hlast
  subst hlast
  rw [hplace, stepFrom_of_name hstay.1 hstay.2 hdots, List.getLast?_concat]

theorem getLast?_of_locate_join {dir name : String} (h : t.locate (Path.join dir name) = .ok place)
    (hslash : '/' ∉ name.toList) (hempty : name ≠ "") (hdot : name ≠ ".") (hdots : name ≠ "..") :
    place.getLast? = some name := by
  obtain ⟨init, hcomponents⟩ := Path.exists_components_join dir hslash
  obtain ⟨-, hdescend⟩ := locate_eq_ok_iff.1 h
  rw [hcomponents, descend_concat_eq_ok_iff] at hdescend
  obtain ⟨parent, -, hplace⟩ := hdescend
  rw [(enter_eq_ok_iff.1 hplace).2.2, stepFrom_of_name hempty hdot hdots, List.getLast?_concat]

section Put

variable {node : Node}

theorem node?_put (hplace : place ≠ []) (q : List String) :
    (t.put place node).node? q = if q = place then some node else t.node? q := by
  cases q with
  | nil =>
    rw [if_neg (Ne.symm hplace)]
    rfl
  | cons first rest =>
    have hnode : ∀ t : FileTree, t.node? (first :: rest) = t.entries.lookup (first :: rest) :=
      fun _ => rfl
    rw [hnode, hnode, put, List.lookup_cons]
    split_ifs with hq
    · simp [hq]
    · simp [beq_false_of_ne hq, lookup_filter_of_ne hq]

/-- Directories lead on where something else is put. -/
theorem descend_put (hplace : place ≠ []) (hnode : t.node? place ≠ some .directory)
    {components : List String} {start : List String} (h : t.descend start components = .ok q) :
    (t.put place node).descend start components = .ok q := by
  induction components generalizing start with
  | nil => exact h
  | cons component rest ih =>
    obtain ⟨next, hnext, hrest⟩ := descend_cons_eq_ok_iff.1 h
    refine descend_cons_eq_ok_iff.2 ⟨next, ?_, ih hrest⟩
    obtain ⟨hdirectory, hlong, hstep⟩ := enter_eq_ok_iff.1 hnext
    have hne : start ≠ place := by
      rintro rfl
      exact hnode hdirectory
    refine enter_eq_ok_iff.2 ⟨?_, hlong, hstep⟩
    rw [node?_put hplace, if_neg hne, hdirectory]

theorem locate_put (hplace : place ≠ []) (hnode : t.node? place ≠ some .directory)
    (h : t.locate path = .ok q) : (t.put place node).locate path = .ok q := by
  obtain ⟨hcheck, hdescend⟩ := locate_eq_ok_iff.1 h
  exact locate_eq_ok_iff.2 ⟨hcheck, descend_put hplace hnode hdescend⟩

end Put

/-- A write goes to a place where there is no directory. It puts a file there, or gives the content
to a sink and leaves the tree as it is. -/
theorem write_eq_ok_iff {t' : FileTree} : t.write path content = .ok t' ↔
    ∃ place, t.target path = .ok place ∧ t.node? place ≠ some .directory ∧
      t' = if t.node? place = some .sink then t else t.put place (.file content) := by
  rw [write_eq, except_bind_eq_ok_iff]
  refine exists_congr fun place => and_congr_right fun _ => ?_
  unfold putFile
  rcases t.node? place with _ | _ | _ | _ <;> simp [eq_comm]

/-- What was written to a path is read there again, unless it leads to a sink. -/
theorem read_of_write {t' : FileTree} (h : t.write path content = .ok t') :
    t'.read path = .ok content ∨
      t' = t ∧ ∃ place, t.locate path = .ok place ∧ t.node? place = some .sink := by
  obtain ⟨place, htarget, hnode, rfl⟩ := write_eq_ok_iff.1 h
  have hlocate := locate_of_target htarget
  have hplace : place ≠ [] := by
    rintro rfl
    exact hnode rfl
  split_ifs with hsink
  · exact .inr ⟨rfl, place, hlocate, hsink⟩
  · refine .inl (read_eq_ok_iff.2 ⟨place, locate_put hplace hnode hlocate, .inl ?_⟩)
    rw [node?_put hplace, if_pos rfl]

end FileTree

end Machine86
