import Machine86.Text.Numeral
import Machine86.Text.Utf8
import Mathlib.Tactic.SplitIfs

/-!
# Texts taken apart

Where two texts are put together alike, they are equal only if their parts are: a separator that
does not occur before it ends the first part (`eq_of_append_separator`), a first part in characters
of one kind ends before one of another (`eq_of_append_span`), and a first part without digits
ends where the digits of a number begin (`eq_of_append_digits`). So no two numbers have the same
numeral, with or without a sign, in decimal or in hexadecimal, and no two texts have the same bytes
(`Utf8.encode_injective`).
-/

namespace Machine86

theorem takeWhile_append_separator {c : Char} {s : List Char} (hs : c ∉ s) (rest : List Char) :
    (s ++ c :: rest).takeWhile (· != c) = s := by
  rw [List.takeWhile_append_of_pos, List.takeWhile_cons_of_neg, List.append_nil]
  · simp
  · intro a ha
    rw [bne_iff_ne]
    rintro rfl
    exact hs ha

theorem eq_of_append_separator {s t u v separator : String} {c : Char} {cs : List Char}
    (hseparator : separator.toList = c :: cs) (hs : c ∉ s.toList) (ht : c ∉ t.toList)
    (h : s ++ separator ++ u = t ++ separator ++ v) : s = t ∧ u = v := by
  have hlist := congrArg String.toList h
  simp only [String.toList_append, hseparator, List.append_assoc, List.cons_append] at hlist
  have hst : s.toList = t.toList := by
    rw [← takeWhile_append_separator hs (cs ++ u.toList), hlist, takeWhile_append_separator ht]
  rw [hst, List.append_cancel_left_eq, List.cons.injEq, List.append_cancel_left_eq] at hlist
  exact ⟨String.toList_inj.1 hst, String.toList_inj.1 hlist.2⟩

theorem takeWhile_append_of_all {α : Type} {p : α → Bool} {s u : List α}
    (hs : ∀ a ∈ s, p a = true) (hu : ∀ a ∈ u.head?, p a = false) : (s ++ u).takeWhile p = s := by
  rw [List.takeWhile_append_of_pos hs]
  cases u with
  | nil => rw [List.takeWhile_nil, List.append_nil]
  | cons a u =>
    have ha : ¬ p a = true := by simp [hu a rfl]
    rw [List.takeWhile_cons_of_neg ha, List.append_nil]

/-- A part in elements of one kind ends before the first element of another kind. -/
theorem eq_of_append_span {α : Type} {p : α → Bool} {s t u v : List α} (hs : ∀ a ∈ s, p a = true)
    (ht : ∀ a ∈ t, p a = true) (hu : ∀ a ∈ u.head?, p a = false)
    (hv : ∀ a ∈ v.head?, p a = false) (h : s ++ u = t ++ v) : s = t ∧ u = v := by
  have hst : s = t := by
    rw [← takeWhile_append_of_all hs hu, h, takeWhile_append_of_all ht hv]
  rw [hst, List.append_cancel_left_eq] at h
  exact ⟨hst, h⟩

/-- No character is a digit. -/
def Digitless (s : String) : Prop := ∀ c ∈ s.toList, c.isDigit = false

/-- Every character is a digit. -/
def Digits (s : String) : Prop := ∀ c ∈ s.toList, c.isDigit = true

theorem eq_of_append_digits {s t u v : String} (hs : Digitless s) (ht : Digitless t)
    (hu : Digits u) (hv : Digits v) (h : s ++ u = t ++ v) : s = t ∧ u = v := by
  have hlist := congrArg String.toList h
  simp only [String.toList_append] at hlist
  have hdigits : ∀ {a b : String}, Digitless a → Digits b →
      (a.toList ++ b.toList).filter Char.isDigit = b.toList := by
    intro a b ha hb
    rw [List.filter_append, List.filter_eq_nil_iff.2 (by simpa [Digitless] using ha),
      List.filter_eq_self.2 hb, List.nil_append]
  have huv : u.toList = v.toList := by rw [← hdigits hs hu, hlist, hdigits ht hv]
  rw [huv] at hlist
  exact ⟨String.toList_inj.1 (List.append_cancel_right hlist), String.toList_inj.1 huv⟩

namespace Numeral

theorem decimal_inj {m n : Nat} : decimal m = decimal n ↔ m = n := by
  refine ⟨fun h => ?_, congrArg decimal⟩
  have hvalue := congrArg (fun s => Nat.ofDigitChars 10 s.toList 0) h
  simpa [decimal] using hvalue

theorem digits_decimal (n : Nat) : Digits (decimal n) := by
  intro c hc
  rw [decimal, Nat.toList_repr] at hc
  exact Nat.isDigit_of_mem_toDigits (by omega) (by omega) hc

/-- A numeral with a mark before it tells both. -/
theorem append_decimal_inj {s t : String} (hs : Digitless s) (ht : Digitless t) {m n : Nat}
    (h : s ++ decimal m = t ++ decimal n) : s = t ∧ m = n := by
  obtain ⟨hst, hmn⟩ := eq_of_append_digits hs ht (digits_decimal m) (digits_decimal n) h
  exact ⟨hst, decimal_inj.1 hmn⟩

theorem signed_eq (i : Int) : signed i = (if i < 0 then "-" else "") ++ decimal i.natAbs := by
  unfold signed
  split_ifs
  · rfl
  · rw [String.empty_append]

theorem signedPlus_eq (i : Int) :
    signedPlus i = (if i < 0 then "-" else "+") ++ decimal i.natAbs := by
  unfold signedPlus
  split_ifs <;> rfl

/-- Two marks for the sign make a number known. -/
theorem sign_append_decimal_inj {minus other : String} (hminus : Digitless minus)
    (hother : Digitless other) (hne : minus ≠ other) {i j : Int}
    (h : (if i < 0 then minus else other) ++ decimal i.natAbs =
      (if j < 0 then minus else other) ++ decimal j.natAbs) : i = j := by
  have hmark : ∀ k : Int, Digitless (if k < 0 then minus else other) := by
    intro k
    split_ifs
    · exact hminus
    · exact hother
  obtain ⟨hsign, hsize⟩ := append_decimal_inj (hmark i) (hmark j) h
  split_ifs at hsign
  · omega
  · exact absurd hsign hne
  · exact absurd hsign.symm hne
  · omega

theorem signed_inj {i j : Int} (h : signed i = signed j) : i = j := by
  rw [signed_eq, signed_eq] at h
  exact sign_append_decimal_inj (by simp [Digitless]) (by simp [Digitless]) (by decide) h

theorem signedPlus_inj {i j : Int} (h : signedPlus i = signedPlus j) : i = j := by
  rw [signedPlus_eq, signedPlus_eq] at h
  exact sign_append_decimal_inj (by simp [Digitless]) (by simp [Digitless]) (by decide) h

theorem mem_signed {i : Int} {c : Char} (h : c ∈ (signed i).toList) :
    c = '-' ∨ c.isDigit = true := by
  rw [signed_eq, String.toList_append, List.mem_append] at h
  rcases h with h | h
  · split_ifs at h
    · exact .inl (by simpa using h)
    · simp at h
  · exact .inr (digits_decimal _ c h)

section Hexadecimal

theorem digitValue?_digitChar : ∀ n < 16, digitValue? (Nat.digitChar n) = some n := by
  decide

theorem ofDigits?_append (base : Nat) (s t : List Char) (acc : Nat) :
    ofDigits? base (s ++ t) acc = (ofDigits? base s acc).bind (ofDigits? base t) := by
  induction s generalizing acc with
  | nil => rfl
  | cons c s ih =>
    rw [List.cons_append, ofDigits?, ofDigits?]
    cases digitValue? c with
    | none => rfl
    | some d =>
      dsimp only
      split_ifs
      · exact ih _
      · rfl

theorem ofDigits?_zeros (k : Nat) (s : List Char) :
    ofDigits? 16 (List.replicate k '0' ++ s) 0 = ofDigits? 16 s 0 := by
  induction k with
  | zero => rfl
  | succ k ih =>
    rw [← ih]
    rfl

/-- Digits of base sixteen can be read back. -/
theorem ofDigits?_toDigits (n : Nat) : ofDigits? 16 (Nat.toDigits 16 n) 0 = some n := by
  induction n using Nat.strongRecOn with
  | ind n ih =>
    have hlast : ∀ d < 16, ∀ acc, ofDigits? 16 [Nat.digitChar d] acc = some (acc * 16 + d) := by
      intro d hd acc
      simp [ofDigits?, digitValue?_digitChar d hd, hd]
    by_cases hn : n < 16
    · rw [Nat.toDigits_of_lt_base hn, hlast n hn, Nat.zero_mul, Nat.zero_add]
    · rw [Nat.toDigits_of_base_le (by omega) (by omega), ofDigits?_append, ih (n / 16) (by omega),
        Option.bind_some, hlast _ (by omega), Nat.div_add_mod']

theorem hex_inj {m n : Nat} (h : hex m = hex n) : m = n := by
  have hread := congrArg (fun s => ofDigits? 16 s.toList 0) h
  simpa [hex, ofDigits?_toDigits] using hread

theorem hexPadded_inj {width m n : Nat} (h : hexPadded width m = hexPadded width n) : m = n := by
  have hread := congrArg (fun s => ofDigits? 16 s.toList 0) h
  simpa [hexPadded, ofDigits?_zeros, ofDigits?_toDigits] using hread

/-- A digit of base sixteen, in lower case. -/
def isHexDigit (c : Char) : Bool := c.isDigit || "abcdef".toList.contains c

theorem isHexDigit_digitChar : ∀ n < 16, isHexDigit (Nat.digitChar n) = true := by
  decide

theorem isHexDigit_of_mem_toDigits {n : Nat} {c : Char} (h : c ∈ Nat.toDigits 16 n) :
    isHexDigit c = true := by
  induction n using Nat.strongRecOn with
  | ind n ih =>
    by_cases hn : n < 16
    · rw [Nat.toDigits_of_lt_base hn, List.mem_singleton] at h
      rw [h, isHexDigit_digitChar n hn]
    · rw [Nat.toDigits_of_base_le (by omega) (by omega), List.mem_append, List.mem_singleton] at h
      rcases h with h | rfl
      · exact ih (n / 16) (by omega) h
      · exact isHexDigit_digitChar _ (by omega)

/-- A character of a number with the mark of base sixteen before it. -/
def isNumberChar (c : Char) : Bool := c == 'x' || isHexDigit c

theorem toList_prefixedHex (n : Nat) :
    (prefixedHex n).toList = '0' :: 'x' :: Nat.toDigits 16 n := by
  simp [prefixedHex, hex]

theorem prefixedHex_inj {m n : Nat} (h : prefixedHex m = prefixedHex n) : m = n := by
  rw [prefixedHex, prefixedHex, String.append_right_inj] at h
  exact hex_inj h

theorem isNumberChar_of_mem_prefixedHex {n : Nat} {c : Char} (h : c ∈ (prefixedHex n).toList) :
    isNumberChar c = true := by
  rw [toList_prefixedHex, List.mem_cons, List.mem_cons] at h
  rcases h with rfl | rfl | h
  · rfl
  · rfl
  · rw [isNumberChar, isHexDigit_of_mem_toDigits h, Bool.or_true]

theorem not_mem_prefixedHex {n : Nat} {c : Char} (hc : isNumberChar c = false) :
    c ∉ (prefixedHex n).toList := by
  intro h
  rw [isNumberChar_of_mem_prefixedHex h] at hc
  cases hc

theorem word_inj {v w : UInt16} (h : word v = word w) : v = w := by
  rw [word, word, String.append_right_inj] at h
  exact UInt16.toNat.inj (hexPadded_inj h)

theorem not_mem_hexPadded {width n : Nat} {c : Char} (hc : isNumberChar c = false) :
    c ∉ (hexPadded width n).toList := by
  intro h
  have hnumber : isNumberChar c = true := by
    simp only [hexPadded, String.toList_ofList, List.mem_append, List.mem_replicate] at h
    rcases h with ⟨-, rfl⟩ | h
    · rfl
    · rw [isNumberChar, isHexDigit_of_mem_toDigits h, Bool.or_true]
  rw [hnumber] at hc
  cases hc

theorem not_mem_word {w : UInt16} {c : Char} (hc : isNumberChar c = false) :
    c ∉ (word w).toList := by
  rw [word, String.toList_append, List.mem_append, not_or]
  refine ⟨fun h => ?_, not_mem_hexPadded hc⟩
  have hall : "0x".toList.all isNumberChar = true := by decide
  rw [List.all_eq_true.1 hall c h] at hc
  cases hc

end Hexadecimal

end Numeral

namespace Utf8

theorem toListLoop_eq (bytes : ByteArray) (i : Nat) (acc : List UInt8) :
    ByteArray.toList.loop bytes i acc = acc.reverse ++ bytes.data.toList.drop i := by
  induction i, acc using ByteArray.toList.loop.induct bytes with
  | case1 i acc hi ih =>
    have hdrop : bytes.data.toList.drop i = bytes.get! i :: bytes.data.toList.drop (i + 1) := by
      have hget : bytes.get! i = bytes.data[i] := getElem!_pos bytes.data i hi
      rw [List.drop_eq_getElem_cons (by simpa using hi), hget, Array.getElem_toList]
    rw [ByteArray.toList.loop, if_pos hi, ih, hdrop, List.reverse_cons, List.append_assoc,
      List.singleton_append]
  | case2 i acc hi =>
    have hdrop : bytes.data.toList.drop i = [] := List.drop_of_length_le (by simpa using hi)
    rw [ByteArray.toList.loop, if_neg hi, hdrop, List.append_nil]

theorem encode_injective : Function.Injective encode := by
  intro s t h
  have hbytes (text : String) : encode text = text.toByteArray.data.toList := toListLoop_eq _ 0 []
  rw [hbytes, hbytes, Array.toList_inj] at h
  exact String.toByteArray_inj.1 (ByteArray.ext h)

end Utf8

end Machine86
