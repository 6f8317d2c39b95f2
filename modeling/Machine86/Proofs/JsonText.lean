import Machine86.Json.Printer
import Machine86.Proofs.Texts

/-!
# A JSON text tells its value

A text shows where each value in it ends. A string ends at its first quote that is not escaped, an
array or an object behind its last item, and a number before the first character that cannot be
part of one, which is never missing since a comma or a line break follows every item. The first
character tells of what kind a value is. So values of the same text are the same, and that is
proved for values at the start of a longer text (`Json.told_prettyAt`), from which it follows for
whole texts (`Json.pretty_inj`).
-/

namespace Machine86.Json

/-- A character that a number can go on with. -/
def isNumeralChar (c : Char) : Bool := c == '-' || c.isDigit

/-- No number goes on here. -/
def EndsNumber (u : List Char) : Prop := ∀ c ∈ u.head?, isNumeralChar c = false

/-- A text that starts with the print of `a` and could go on behind it starts with no other
print. -/
def Told {α : Type} (print : α → String) (a : α) : Prop :=
  ∀ (b : α) (u v : List Char), EndsNumber u → EndsNumber v →
    (print a).toList ++ u = (print b).toList ++ v → a = b ∧ u = v

section Strings

/-- The character that a text in a string starts with, and what is behind it. -/
def unescape : List Char → Option (Char × List Char)
  | '\\' :: 'b' :: rest => some ('\x08', rest)
  | '\\' :: 'f' :: rest => some ('\x0c', rest)
  | '\\' :: 'n' :: rest => some ('\n', rest)
  | '\\' :: 'r' :: rest => some ('\r', rest)
  | '\\' :: 't' :: rest => some ('\t', rest)
  | '\\' :: 'u' :: _ :: _ :: high :: low :: rest => do
    let high ← Numeral.digitValue? high
    let low ← Numeral.digitValue? low
    return (Char.ofNat (16 * high + low), rest)
  | '\\' :: c :: rest => some (c, rest)
  | c :: rest => some (c, rest)
  | [] => none

theorem unescape_escape (c : Char) (rest : List Char) :
    unescape (escape c ++ rest) = some (c, rest) := by
  unfold escape
  split_ifs with hquote hslash hb hf hn hr ht hcontrol
  · rw [hquote]; rfl
  · rw [hslash]; rfl
  · rw [hb]; rfl
  · rw [hf]; rfl
  · rw [hn]; rfl
  · rw [hr]; rfl
  · rw [ht]; rfl
  · have hhigh := Numeral.digitValue?_digitChar (c.toNat / 16) (by omega)
    have hlow := Numeral.digitValue?_digitChar (c.toNat % 16) (by omega)
    have hcode : 16 * (c.toNat / 16) + c.toNat % 16 = c.toNat := Nat.div_add_mod _ _
    simp [unescape, hhigh, hlow, hcode]
  · simp [unescape, hslash]

theorem escape_append_inj {c d : Char} {u v : List Char} (h : escape c ++ u = escape d ++ v) :
    c = d ∧ u = v := by
  have hread := congrArg unescape h
  simpa [unescape_escape] using hread

/-- The quote at the end of a string is no character of it. -/
theorem escape_append_ne (c : Char) (u v : List Char) : escape c ++ u ≠ '"' :: v := by
  intro h
  unfold escape at h
  split_ifs at h <;> simp_all

theorem escaped_append_inj {s t u v : List Char}
    (h : s.flatMap escape ++ '"' :: u = t.flatMap escape ++ '"' :: v) : s = t ∧ u = v := by
  induction s generalizing t with
  | nil =>
    cases t with
    | nil => simpa using h
    | cons d t =>
      rw [List.flatMap_cons, List.append_assoc] at h
      exact absurd h.symm (escape_append_ne d _ _)
  | cons c s ih =>
    rw [List.flatMap_cons, List.append_assoc] at h
    cases t with
    | nil => exact absurd h (escape_append_ne c _ _)
    | cons d t =>
      rw [List.flatMap_cons, List.append_assoc] at h
      obtain ⟨rfl, hrest⟩ := escape_append_inj h
      obtain ⟨rfl, rfl⟩ := ih hrest
      exact ⟨rfl, rfl⟩

theorem toList_quote (s : String) : (quote s).toList = '"' :: (s.toList.flatMap escape ++ ['"']) := by
  simp [quote]

theorem quote_append_inj {s t : String} {u v : List Char}
    (h : (quote s).toList ++ u = (quote t).toList ++ v) : s = t ∧ u = v := by
  rw [toList_quote, toList_quote, List.cons_append, List.cons_append, List.append_assoc,
    List.append_assoc, List.cons.injEq] at h
  obtain ⟨hst, huv⟩ := escaped_append_inj h.2
  exact ⟨String.toList_inj.1 hst, huv⟩

end Strings

theorem isNumeralChar_of_mem_signed {i : Int} {c : Char} (h : c ∈ (Numeral.signed i).toList) :
    isNumeralChar c = true := by
  rcases Numeral.mem_signed h with rfl | h
  · rfl
  · simp [isNumeralChar, h]

theorem told_signed (i : Int) : Told Numeral.signed i := by
  intro j u v hu hv h
  obtain ⟨hij, huv⟩ := eq_of_append_span (fun _ => isNumeralChar_of_mem_signed)
    (fun _ => isNumeralChar_of_mem_signed) hu hv h
  exact ⟨Numeral.signed_inj (String.toList_inj.1 hij), huv⟩

section Blocks

variable (depth : Nat) (closing : String)

/-- What stands behind an item of a block: a comma and the next item, or the closing bracket. -/
def blockTail : List String → List Char
  | [] => (lineBreak depth ++ closing).toList
  | item :: items =>
    ',' :: ((lineBreak (depth + 1)).toList ++ (item.toList ++ blockTail items))

theorem toList_lineBreak : (lineBreak depth).toList = '\n' :: List.replicate (2 * depth) ' ' :=
  String.toList_ofList

theorem endsNumber_blockTail (items : List String) (u : List Char) :
    EndsNumber (blockTail depth closing items ++ u) := by
  intro c hc
  cases items with
  | nil =>
    rw [blockTail, String.toList_append, toList_lineBreak] at hc
    cases hc
    rfl
  | cons item items =>
    cases hc
    rfl

theorem toList_intercalate_append (item : String) (items : List String) :
    (("," ++ lineBreak (depth + 1)).intercalate (item :: items) ++ lineBreak depth ++
      closing).toList = item.toList ++ blockTail depth closing items := by
  induction items generalizing item with
  | nil => simp [blockTail]
  | cons next items ih =>
    have hnext := ih next
    simp only [String.toList_append, String.toList_intercalate, List.map_cons,
      List.intercalate_cons_cons, List.append_assoc] at hnext ⊢
    rw [hnext, blockTail]
    simp

theorem toList_block_nil (opening : String) :
    (block depth opening closing []).toList = opening.toList ++ closing.toList := by
  simp [block]

theorem toList_block_cons (opening item : String) (items : List String) :
    (block depth opening closing (item :: items)).toList =
      opening.toList ++ ((lineBreak (depth + 1)).toList ++
        (item.toList ++ blockTail depth closing items)) := by
  rw [← toList_intercalate_append]
  simp [block]

variable {depth closing} {α : Type} {print : α → String} {as : List α}

theorem blockTail_inj (has : ∀ a ∈ as, Told print a) {bs : List α} {u v : List Char}
    (h : blockTail depth closing (as.map print) ++ u =
      blockTail depth closing (bs.map print) ++ v) : as = bs ∧ u = v := by
  induction as generalizing bs with
  | nil =>
    cases bs with
    | nil => exact ⟨rfl, List.append_cancel_left h⟩
    | cons b bs => simp [blockTail, toList_lineBreak] at h
  | cons a as ih =>
    obtain ⟨ha, has⟩ := List.forall_mem_cons.1 has
    cases bs with
    | nil => simp [blockTail, toList_lineBreak] at h
    | cons b bs =>
      simp only [List.map_cons, blockTail, List.cons_append, List.append_assoc, List.cons.injEq,
        true_and, List.append_cancel_left_eq] at h
      obtain ⟨rfl, hrest⟩ := ha b _ _ (endsNumber_blockTail _ _ _ u)
        (endsNumber_blockTail _ _ _ v) h
      obtain ⟨rfl, rfl⟩ := ih has hrest
      exact ⟨rfl, rfl⟩

/-- A block tells its items, where its bracket is no line break. -/
theorem block_inj (has : ∀ a ∈ as, Told print a) {opening : String} {c : Char}
    (hclosing : closing.toList = [c]) (hc : c ≠ '\n') {bs : List α} {u v : List Char}
    (h : (block depth opening closing (as.map print)).toList ++ u =
      (block depth opening closing (bs.map print)).toList ++ v) : as = bs ∧ u = v := by
  cases as with
  | nil =>
    cases bs with
    | nil => exact ⟨rfl, List.append_cancel_left h⟩
    | cons b bs =>
      rw [List.map_nil, List.map_cons, toList_block_nil, toList_block_cons] at h
      simp [hclosing, toList_lineBreak, hc] at h
  | cons a as =>
    obtain ⟨ha, has⟩ := List.forall_mem_cons.1 has
    cases bs with
    | nil =>
      rw [List.map_nil, List.map_cons, toList_block_nil, toList_block_cons] at h
      simp [hclosing, toList_lineBreak, hc.symm] at h
    | cons b bs =>
      rw [List.map_cons, List.map_cons, toList_block_cons, toList_block_cons] at h
      simp only [List.append_assoc, List.append_cancel_left_eq] at h
      obtain ⟨rfl, hrest⟩ := ha b _ _ (endsNumber_blockTail _ _ _ u)
        (endsNumber_blockTail _ _ _ v) h
      obtain ⟨rfl, rfl⟩ := blockTail_inj has hrest
      exact ⟨rfl, rfl⟩

end Blocks

/-- The line of a member of an object. -/
def memberText (depth : Nat) (m : String × Json) : String :=
  quote m.1 ++ ": " ++ prettyAt depth m.2

theorem prettyItems_eq_map (depth : Nat) (items : List Json) :
    prettyItems depth items = items.map (prettyAt depth) := by
  induction items with
  | nil => rfl
  | cons j items ih => rw [prettyItems, ih, List.map_cons]

theorem prettyMembers_eq_map (depth : Nat) (members : List (String × Json)) :
    prettyMembers depth members = members.map (memberText depth) := by
  induction members with
  | nil => rfl
  | cons m members ih => rw [prettyMembers, ih, List.map_cons, memberText]

theorem told_memberText {depth : Nat} {m : String × Json} (h : Told (prettyAt depth) m.2) :
    Told (memberText depth) m := by
  rintro ⟨key, j⟩ u v hu hv heq
  simp only [memberText, String.toList_append, List.append_assoc] at heq
  obtain ⟨hkey, hrest⟩ := quote_append_inj heq
  rw [List.append_cancel_left_eq] at hrest
  obtain ⟨hj, huv⟩ := h j u v hu hv hrest
  exact ⟨Prod.ext hkey hj, huv⟩

/-- The kinds of values, which the first character of a text tells apart. -/
inductive Kind
  | null
  | truth
  | number
  | string
  | array
  | object

def kind : Json → Kind
  | null => .null
  | bool _ => .truth
  | number _ => .number
  | string _ => .string
  | array _ => .array
  | object _ => .object

def Kind.ofChar (c : Char) : Kind :=
  if c = 'n' then null
  else if c = 't' ∨ c = 'f' then truth
  else if c = '"' then string
  else if c = '[' then array
  else if c = '\x7b' then object
  else number

theorem Kind.ofChar_of_isNumeralChar {c : Char} (h : isNumeralChar c = true) :
    ofChar c = number := by
  unfold ofChar
  split_ifs with hn ht hs ha ho
  · subst hn; cases h
  · rcases ht with rfl | rfl <;> cases h
  · subst hs; cases h
  · subst ha; cases h
  · subst ho; cases h
  · rfl

theorem toList_block (depth : Nat) (opening closing : String) (items : List String) :
    ∃ rest, (block depth opening closing items).toList = opening.toList ++ rest := by
  cases items with
  | nil => exact ⟨_, toList_block_nil depth closing opening⟩
  | cons item items => exact ⟨_, toList_block_cons depth closing opening item items⟩

theorem exists_head (depth : Nat) (j : Json) :
    ∃ c rest, (prettyAt depth j).toList = c :: rest ∧ Kind.ofChar c = j.kind := by
  cases j with
  | null => exact ⟨'n', ['u', 'l', 'l'], by simp [prettyAt], rfl⟩
  | bool b =>
    cases b with
    | true => exact ⟨'t', ['r', 'u', 'e'], by simp [prettyAt], rfl⟩
    | false => exact ⟨'f', ['a', 'l', 's', 'e'], by simp [prettyAt], rfl⟩
  | number n =>
    have hne : (Numeral.signed n).toList ≠ [] := by
      simp [Numeral.signed_eq, Numeral.decimal]
    obtain ⟨c, rest, htext⟩ := List.exists_cons_of_ne_nil hne
    refine ⟨c, rest, htext, Kind.ofChar_of_isNumeralChar (isNumeralChar_of_mem_signed (i := n) ?_)⟩
    rw [htext]
    exact List.mem_cons_self
  | string s => exact ⟨'"', _, toList_quote s, rfl⟩
  | array items =>
    obtain ⟨rest, htext⟩ := toList_block depth "[" "]" (prettyItems (depth + 1) items)
    exact ⟨'[', rest, htext, rfl⟩
  | object members =>
    obtain ⟨rest, htext⟩ := toList_block depth "\x7b" "\x7d" (prettyMembers (depth + 1) members)
    exact ⟨'\x7b', rest, htext, rfl⟩

theorem kind_eq_of_append_eq {depth : Nat} {j k : Json} {u v : List Char}
    (h : (prettyAt depth j).toList ++ u = (prettyAt depth k).toList ++ v) : j.kind = k.kind := by
  obtain ⟨c, rest, hj, hc⟩ := exists_head depth j
  obtain ⟨d, rest', hk, hd⟩ := exists_head depth k
  rw [hj, hk, List.cons_append, List.cons_append, List.cons.injEq] at h
  rw [← hc, h.1, hd]

/-- Induction on values: what holds of the items of an array holds of the array, and so for the
values of the members of an object. -/
@[elab_as_elim]
theorem nested_induction {motive : Json → Prop} (null : motive null)
    (bool : ∀ b, motive (bool b)) (number : ∀ n, motive (number n))
    (string : ∀ s, motive (string s))
    (array : ∀ items, (∀ j ∈ items, motive j) → motive (array items))
    (object : ∀ members, (∀ m ∈ members, motive m.2) → motive (object members)) :
    ∀ j, motive j
  | .null => null
  | .bool b => bool b
  | .number n => number n
  | .string s => string s
  | .array items =>
    array items fun j _ => nested_induction null bool number string array object j
  | .object members =>
    object members fun m hm =>
      have : sizeOf m < sizeOf members := List.sizeOf_lt_of_mem hm
      nested_induction null bool number string array object m.2
termination_by j => j
decreasing_by
  · have := List.sizeOf_lt_of_mem ‹_ ∈ items›
    simp only [Json.array.sizeOf_spec]
    omega
  · obtain ⟨key, j⟩ := m
    simp only [Json.object.sizeOf_spec, Prod.mk.sizeOf_spec] at this ⊢
    omega

/-- Each value is told by its text, whatever stands around it. -/
theorem told_prettyAt (depth : Nat) (j : Json) : Told (prettyAt depth) j := by
  induction j using nested_induction generalizing depth with
  | null =>
    intro k u v _ _ h
    have hkind := kind_eq_of_append_eq h
    cases k <;> cases hkind
    exact ⟨rfl, List.append_cancel_left h⟩
  | bool b =>
    intro k u v _ _ h
    have hkind := kind_eq_of_append_eq h
    cases k <;> cases hkind
    rename_i c
    cases b <;> cases c
    · exact ⟨rfl, List.append_cancel_left h⟩
    · simp [prettyAt] at h
    · simp [prettyAt] at h
    · exact ⟨rfl, List.append_cancel_left h⟩
  | number m =>
    intro k u v hu hv h
    have hkind := kind_eq_of_append_eq h
    cases k <;> cases hkind
    obtain ⟨rfl, rfl⟩ := told_signed m _ u v hu hv h
    exact ⟨rfl, rfl⟩
  | string s =>
    intro k u v _ _ h
    have hkind := kind_eq_of_append_eq h
    cases k <;> cases hkind
    obtain ⟨rfl, rfl⟩ := quote_append_inj h
    exact ⟨rfl, rfl⟩
  | array items ih =>
    intro k u v _ _ h
    have hkind := kind_eq_of_append_eq h
    cases k <;> cases hkind
    simp only [prettyAt, prettyItems_eq_map] at h
    obtain ⟨rfl, rfl⟩ := block_inj (fun j hj => ih j hj (depth + 1)) rfl (by decide) h
    exact ⟨rfl, rfl⟩
  | object members ih =>
    intro k u v _ _ h
    have hkind := kind_eq_of_append_eq h
    cases k <;> cases hkind
    simp only [prettyAt, prettyMembers_eq_map] at h
    obtain ⟨rfl, rfl⟩ :=
      block_inj (fun m hm => told_memberText (ih m hm (depth + 1))) rfl (by decide) h
    exact ⟨rfl, rfl⟩

theorem pretty_inj {j k : Json} (h : j.pretty = k.pretty) : j = k := by
  have hempty : EndsNumber [] := by simp [EndsNumber]
  exact (told_prettyAt 0 j k [] [] hempty hempty (congrArg (·.toList ++ []) h)).1

end Machine86.Json
