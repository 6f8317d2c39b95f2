import Machine86.Reader

/-!
# Reading consumes a prefix

A computation on readers is `Consuming` when each success takes some bytes off the front and counts
them, which holds of the single reads and of everything that is composed of them.
-/

namespace Machine86.Reading

variable {ε ε' α β : Type}

/-- On success the reader has passed over a prefix of what lay ahead. -/
def Consuming (x : Reading ε α) : Prop :=
  ∀ ⦃r a r'⦄, x r = .ok a r' →
    ∃ used, r.rest = used ++ r'.rest ∧ r'.position = r.position + used.length

theorem Consuming.pure (a : α) : Consuming (pure a : Reading ε α) := by
  intro r b r' h
  cases h
  exact ⟨[], by simp⟩

theorem Consuming.throw (e : ε) : Consuming (throw e : Reading ε α) := by
  intro r b r' h
  cases h

theorem Consuming.bind {x : Reading ε α} {f : α → Reading ε β} (hx : Consuming x)
    (hf : ∀ a, Consuming (f a)) : Consuming (x >>= f) := by
  intro r b r'' h
  simp only [Bind.bind, EStateM.bind] at h
  split at h
  · rename_i a r' hxr
    obtain ⟨used, hrest, hpos⟩ := hx hxr
    obtain ⟨used', hrest', hpos'⟩ := hf a h
    exact ⟨used ++ used', by simp [hrest, hrest'], by simp [hpos, hpos', Nat.add_assoc]⟩
  · cases h

theorem Consuming.map {x : Reading ε α} (f : α → β) (hx : Consuming x) : Consuming (f <$> x) := by
  intro r b r' h
  simp only [Functor.map, EStateM.map] at h
  split at h
  · rename_i a s hxr
    cases h
    exact hx hxr
  · cases h

theorem Consuming.adaptExcept {x : Reading ε α} (f : ε → ε') (hx : Consuming x) :
    Consuming (EStateM.adaptExcept f x) := by
  intro r b r' h
  simp only [EStateM.adaptExcept] at h
  split at h
  · cases h
  · rename_i a s hxr
    cases h
    exact hx hxr

theorem consuming_byte : Consuming byte := by
  intro r b r' h
  unfold byte at h
  split at h
  · rename_i c rest hr
    cases h
    exact ⟨[b], by simp [hr]⟩
  · cases h

theorem consuming_signedByte : Consuming signedByte := consuming_byte.map _

theorem consuming_word : Consuming word := by
  intro r b r' h
  unfold word at h
  split at h
  · rename_i lo hi rest hr
    cases h
    exact ⟨[lo, hi], by simp [hr]⟩
  · cases h

theorem consuming_immediate (wide : Bool) : Consuming (immediate wide) := by
  unfold immediate
  split
  · exact consuming_word
  · exact consuming_byte.map _

end Machine86.Reading
