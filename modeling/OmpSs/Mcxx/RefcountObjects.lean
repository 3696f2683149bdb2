import OmpSs.Mcxx.Refcount
import Mathlib.Algebra.BigOperators.Group.Finset.Basic
import Mathlib.Algebra.BigOperators.Group.Finset.Piecewise
import Mathlib.Algebra.Order.BigOperators.Group.Finset
import Mathlib.Data.Fintype.Basic

/-!
# The objects of the reference counts

What each change of an object leaves as it was, and how often the fields of a set of objects point to an
object (`into`). The objects on trial are the gray and the white ones.
-/

namespace OmpSs.Mcxx

/-- The colours of the objects whose references are off the counts. -/
def Colour.onTrial : Colour → Bool
  | .gray | .white => true
  | .black | .purple => false

namespace Refcount

section
variable {s s' s₀ : Refcount} {p q x y : Nat} {colour : Colour} {d : Int} {b : Bool}

/-! ## Changes of an object -/

theorem modify_obj (f : Object → Object) :
    (s.modify p f).obj x = if x = p then f (s.obj p) else s.obj x := Function.update_apply _ _ _ _

@[simp] theorem setColour_colour :
    ((s.setColour p colour).obj x).colour = if x = p then colour else (s.obj x).colour := by
  rw [setColour, modify_obj]
  split <;> rfl

@[simp] theorem setColour_count : ((s.setColour p colour).obj x).count = (s.obj x).count := by
  rw [setColour, modify_obj]
  split
  · next h => rw [h]
  · rfl

@[simp] theorem setColour_fields : ((s.setColour p colour).obj x).fields = (s.obj x).fields := by
  rw [setColour, modify_obj]
  split
  · next h => rw [h]
  · rfl

@[simp] theorem setColour_buffered : ((s.setColour p colour).obj x).buffered = (s.obj x).buffered := by
  rw [setColour, modify_obj]
  split
  · next h => rw [h]
  · rfl

@[simp] theorem addCount_colour : ((s.addCount p d).obj x).colour = (s.obj x).colour := by
  rw [addCount, modify_obj]
  split
  · next h => rw [h]
  · rfl

@[simp] theorem addCount_count :
    ((s.addCount p d).obj x).count = (s.obj x).count + if x = p then d else 0 := by
  rw [addCount, modify_obj]
  split
  · next h => rw [h]
  · rw [Int.add_zero]

@[simp] theorem addCount_fields : ((s.addCount p d).obj x).fields = (s.obj x).fields := by
  rw [addCount, modify_obj]
  split
  · next h => rw [h]
  · rfl

@[simp] theorem addCount_buffered : ((s.addCount p d).obj x).buffered = (s.obj x).buffered := by
  rw [addCount, modify_obj]
  split
  · next h => rw [h]
  · rfl

@[simp] theorem setBuffered_colour : ((s.setBuffered p b).obj x).colour = (s.obj x).colour := by
  rw [setBuffered, modify_obj]
  split
  · next h => rw [h]
  · rfl

@[simp] theorem setBuffered_count : ((s.setBuffered p b).obj x).count = (s.obj x).count := by
  rw [setBuffered, modify_obj]
  split
  · next h => rw [h]
  · rfl

@[simp] theorem setBuffered_fields : ((s.setBuffered p b).obj x).fields = (s.obj x).fields := by
  rw [setBuffered, modify_obj]
  split
  · next h => rw [h]
  · rfl

@[simp] theorem setBuffered_buffered :
    ((s.setBuffered p b).obj x).buffered = if x = p then b else (s.obj x).buffered := by
  rw [setBuffered, modify_obj]
  split <;> rfl

@[simp] theorem setColour_size : (s.setColour p colour).size = s.size := rfl

@[simp] theorem setColour_allocated : (s.setColour p colour).allocated = s.allocated := rfl

@[simp] theorem setColour_roots : (s.setColour p colour).roots = s.roots := rfl

@[simp] theorem setColour_freeSet : (s.setColour p colour).freeSet = s.freeSet := rfl

@[simp] theorem addCount_size : (s.addCount p d).size = s.size := rfl

@[simp] theorem addCount_allocated : (s.addCount p d).allocated = s.allocated := rfl

@[simp] theorem addCount_roots : (s.addCount p d).roots = s.roots := rfl

@[simp] theorem setBuffered_size : (s.setBuffered p b).size = s.size := rfl

@[simp] theorem setBuffered_allocated : (s.setBuffered p b).allocated = s.allocated := rfl

@[simp] theorem setBuffered_roots : (s.setBuffered p b).roots = s.roots := rfl

@[simp] theorem setBuffered_freeSet : (s.setBuffered p b).freeSet = s.freeSet := rfl

@[simp] theorem removeFromRoots_obj : (s.removeFromRoots p).obj = s.obj := rfl

@[simp] theorem removeFromRoots_size : (s.removeFromRoots p).size = s.size := rfl

@[simp] theorem removeFromRoots_allocated : (s.removeFromRoots p).allocated = s.allocated := rfl

@[simp] theorem removeFromRoots_freeSet : (s.removeFromRoots p).freeSet = s.freeSet := rfl

@[simp] theorem addToFreeSet_obj : (s.addToFreeSet p).obj = s.obj := by
  rw [addToFreeSet]
  split <;> rfl

@[simp] theorem addToFreeSet_size : (s.addToFreeSet p).size = s.size := by
  rw [addToFreeSet]
  split <;> rfl

@[simp] theorem addToFreeSet_allocated : (s.addToFreeSet p).allocated = s.allocated := by
  rw [addToFreeSet]
  split <;> rfl

@[simp] theorem addToFreeSet_roots : (s.addToFreeSet p).roots = s.roots := by
  rw [addToFreeSet]
  split <;> rfl

@[simp] theorem mem_addToFreeSet : x ∈ (s.addToFreeSet p).freeSet ↔ x ∈ s.freeSet ∨ x = p := by
  rw [addToFreeSet]
  split
  · next h =>
    refine ⟨.inl, fun hx => hx.elim id fun hx => hx ▸ h⟩
  · rw [List.mem_append, List.mem_singleton]

theorem nodup_addToFreeSet (h : s.freeSet.Nodup) : (s.addToFreeSet p).freeSet.Nodup := by
  rw [addToFreeSet]
  split
  · exact h
  · next hp => exact List.nodup_append.2 ⟨h, List.nodup_singleton p, fun a ha b hb hab => by
      rw [List.mem_singleton.1 hb] at hab
      exact hp (hab ▸ ha)⟩

/-! ## The references of a set of objects -/

/-- How often the fields of an object point to `x`. -/
def edges (s : Refcount) (y x : Nat) : Nat := (s.obj y).fields.count (some x)

/-- How often the fields of the objects of a set point to `x`. -/
def into (s : Refcount) (S : Finset Nat) (x : Nat) : Nat := ∑ y ∈ S, s.edges y x

theorem points_iff : s.Points y x ↔ 0 < s.edges y x := List.count_pos_iff.symm

theorem into_insert {S : Finset Nat} (h : p ∉ S) : s.into (insert p S) x = s.edges p x + s.into S x :=
  Finset.sum_insert h

theorem into_erase {S : Finset Nat} (h : p ∈ S) : s.into S x = s.edges p x + s.into (S.erase p) x :=
  (Finset.add_sum_erase S _ h).symm

theorem into_mono {S T : Finset Nat} (h : S ⊆ T) : s.into S x ≤ s.into T x :=
  Finset.sum_le_sum_of_subset h

theorem into_pos_iff {S : Finset Nat} : 0 < s.into S x ↔ ∃ y ∈ S, s.Points y x := by
  rw [into, Finset.sum_pos_iff]
  simp only [points_iff]

theorem into_sdiff {S T : Finset Nat} (h : T ⊆ S) : s.into S x = s.into (S \ T) x + s.into T x :=
  (Finset.sum_sdiff h).symm

/-- The objects on trial. -/
def trial (s : Refcount) : Finset Nat := (Finset.range s.size).filter fun x => (s.obj x).colour.onTrial

theorem mem_trial : x ∈ s.trial ↔ x < s.size ∧ (s.obj x).colour.onTrial = true := by
  rw [trial, Finset.mem_filter, Finset.mem_range]

@[simp] theorem trial_addCount : (s.addCount p d).trial = s.trial := by
  ext x
  simp only [mem_trial, addCount_size, addCount_colour]

theorem trial_setColour_insert (hp : p < s.size) (h : colour.onTrial = true) :
    (s.setColour p colour).trial = insert p s.trial := by
  ext x
  rw [mem_trial, Finset.mem_insert, mem_trial, setColour_size, setColour_colour]
  rcases eq_or_ne x p with rfl | hx
  · simp [hp, h]
  · simp [hx]

theorem trial_setColour_erase (h : colour.onTrial = false) :
    (s.setColour p colour).trial = s.trial.erase p := by
  ext x
  rw [mem_trial, Finset.mem_erase, mem_trial, setColour_size, setColour_colour]
  rcases eq_or_ne x p with rfl | hx
  · simp [h]
  · simp [hx]

/-- The objects are the same, their colours and counts apart. -/
structure SameGraph (s s' : Refcount) : Prop where
  size : s'.size = s.size
  allocated : s'.allocated = s.allocated
  fields : ∀ x, (s'.obj x).fields = (s.obj x).fields

/-- The buffer of roots and the free set are the same. -/
structure SameSets (s s' : Refcount) : Prop where
  roots : s'.roots = s.roots
  freeSet : s'.freeSet = s.freeSet
  buffered : ∀ x, (s'.obj x).buffered = (s.obj x).buffered

theorem SameGraph.refl (s : Refcount) : SameGraph s s := ⟨rfl, rfl, fun _ => rfl⟩

theorem SameGraph.setColour (h : SameGraph s₀ s) : SameGraph s₀ (s.setColour p colour) :=
  ⟨h.size, h.allocated, fun x => by rw [setColour_fields, h.fields]⟩

theorem SameGraph.addCount (h : SameGraph s₀ s) : SameGraph s₀ (s.addCount p d) :=
  ⟨h.size, h.allocated, fun x => by rw [addCount_fields, h.fields]⟩

theorem SameGraph.setBuffered (h : SameGraph s₀ s) : SameGraph s₀ (s.setBuffered p b) :=
  ⟨h.size, h.allocated, fun x => by rw [setBuffered_fields, h.fields]⟩

theorem SameSets.refl (s : Refcount) : SameSets s s := ⟨rfl, rfl, fun _ => rfl⟩

theorem SameSets.setColour (h : SameSets s₀ s) : SameSets s₀ (s.setColour p colour) :=
  ⟨h.roots, h.freeSet, fun x => by rw [setColour_buffered, h.buffered]⟩

theorem SameSets.addCount (h : SameSets s₀ s) : SameSets s₀ (s.addCount p d) :=
  ⟨h.roots, h.freeSet, fun x => by rw [addCount_buffered, h.buffered]⟩

theorem SameSets.trans (h : SameSets s₀ s) (h' : SameSets s s') : SameSets s₀ s' :=
  ⟨h'.roots.trans h.roots, h'.freeSet.trans h.freeSet, fun x => (h'.buffered x).trans (h.buffered x)⟩

end

end Refcount

end OmpSs.Mcxx
