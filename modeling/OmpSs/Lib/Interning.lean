import Mathlib.Data.List.Nodup
import Mathlib.Data.List.Pairwise

/-!
# Interning

Of equal values one is kept, the entry, and its pointer is returned for all of them. Equality is that of a
comparison as C has it, a function into the integers; `ThreeWay` says that it is an order. If no two entries are
equal or at one pointer, the same pointer is returned for two values if and only if they compare equal
(`Interned.eq_iff`).
-/

namespace OmpSs.Lib

/-- A comparison in three ways: negative, zero and positive for less, equal and greater. -/
structure ThreeWay {α : Type*} (cmp : α → α → Int) : Prop where
  swap : ∀ a b, cmp b a < 0 ↔ 0 < cmp a b
  trans : ∀ a b c, cmp a b ≤ 0 → cmp b c ≤ 0 → cmp a c ≤ 0

section
variable {α : Type*} {cmp : α → α → Int} {a b c : α}

theorem ThreeWay.self (h : ThreeWay cmp) (a : α) : cmp a a = 0 := by
  have := h.swap a a
  omega

theorem ThreeWay.eq_symm (h : ThreeWay cmp) (hab : cmp a b = 0) : cmp b a = 0 := by
  have hba := h.swap a b
  have hab' := h.swap b a
  omega

theorem ThreeWay.eq_trans (h : ThreeWay cmp) (hab : cmp a b = 0) (hbc : cmp b c = 0) : cmp a c = 0 := by
  have hle := h.trans a b c (Int.le_of_eq hab) (Int.le_of_eq hbc)
  have hge := h.trans c b a (Int.le_of_eq (h.eq_symm hbc)) (Int.le_of_eq (h.eq_symm hab))
  have hswap := h.swap c a
  omega

theorem ThreeWay.lt_of_le_of_lt (h : ThreeWay cmp) (hab : cmp a b ≤ 0) (hbc : cmp b c < 0) : cmp a c < 0 := by
  have hle := h.trans a b c hab (Int.le_of_lt hbc)
  have hne : cmp a c ≠ 0 := fun hac => by
    have hcb := h.trans c a b (Int.le_of_eq (h.eq_symm hac)) hab
    have hswap := h.swap c b
    omega
  omega

theorem ThreeWay.lt_trans (h : ThreeWay cmp) (hab : cmp a b < 0) (hbc : cmp b c < 0) : cmp a c < 0 := by
  have hle := h.trans a b c (Int.le_of_lt hab) (Int.le_of_lt hbc)
  have hne : cmp a c ≠ 0 := fun hac => by
    have hba := h.trans b c a (Int.le_of_lt hbc) (Int.le_of_eq (h.eq_symm hac))
    have hswap := h.swap b a
    omega
  omega

end

/-! ## Entries -/

/-- What has been given and returned so far is equal to the entry at the pointer that was returned. -/
structure Interned {α : Type*} (cmp : α → α → Int) (entries returned : List (α × Nat)) : Prop where
  distinct : entries.Pairwise fun e f => cmp e.1 f.1 ≠ 0
  nodup : (entries.map Prod.snd).Nodup
  returned : ∀ r ∈ returned, ∃ e ∈ entries, e.2 = r.2 ∧ cmp e.1 r.1 = 0

namespace Interned

variable {α : Type*} {cmp : α → α → Int} {entries entries' returned : List (α × Nat)} {e r t : α × Nat} {v : α}

/-- One more value is given, and the pointer of an entry equal to it is returned. -/
theorem again (h : Interned cmp entries returned) (he : e ∈ entries) (hv : cmp e.1 v = 0) :
    Interned cmp entries (returned ++ [(v, e.2)]) := by
  refine ⟨h.distinct, h.nodup, fun r hr => ?_⟩
  rcases List.mem_append.1 hr with hr | hr
  · exact h.returned r hr
  · obtain rfl := List.mem_singleton.1 hr
    exact ⟨e, he, rfl, hv⟩

/-- More entries keep what has been returned. -/
theorem extend (h : Interned cmp entries returned) (hsub : entries ⊆ entries')
    (hdistinct : entries'.Pairwise fun e f => cmp e.1 f.1 ≠ 0) (hnodup : (entries'.map Prod.snd).Nodup) :
    Interned cmp entries' returned := by
  refine ⟨hdistinct, hnodup, fun r hr => ?_⟩
  obtain ⟨e, he, hp, hv⟩ := h.returned r hr
  exact ⟨e, hsub he, hp, hv⟩

/-- The same pointer is returned for two values if and only if they compare equal. -/
theorem eq_iff (hcmp : ThreeWay cmp) (h : Interned cmp entries returned) (hr : r ∈ returned) (ht : t ∈ returned) :
    r.2 = t.2 ↔ cmp r.1 t.1 = 0 := by
  obtain ⟨e, he, hep, her⟩ := h.returned r hr
  obtain ⟨f, hf, hfp, hft⟩ := h.returned t ht
  constructor
  · intro heq
    obtain rfl : e = f := List.inj_on_of_nodup_map h.nodup he hf (hep.trans (heq.trans hfp.symm))
    exact hcmp.eq_trans (hcmp.eq_symm her) hft
  · intro heq
    have hef : cmp e.1 f.1 = 0 := hcmp.eq_trans her (hcmp.eq_trans heq (hcmp.eq_symm hft))
    have hsymm : Std.Symm fun e f : α × Nat => cmp e.1 f.1 ≠ 0 := ⟨fun _ _ h h' => h (hcmp.eq_symm h')⟩
    by_contra hne
    exact h.distinct.forall he hf (fun he => hne (by rw [← hep, ← hfp, he])) hef

end Interned

end OmpSs.Lib
