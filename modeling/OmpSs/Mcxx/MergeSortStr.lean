import OmpSs.Lib.CString
import OmpSs.Lib.TwoEndedMerge
import Mathlib.Data.List.Induction

/-!
# Sorting a list of strings

`merge_sort_list_str` (`mcxx/lib/string_utils.c:344`) sorts an array of strings by merging its halves. A merge
copies the halves to a buffer, the second one in reverse, and takes strings from the two ends of it. All
indices stay inside the array and the buffer (`privateMergeSortStr_eq_some`).

Two strings are compared up to the length of the shorter one, which goes through an `int`, and then by their
lengths. From 2^32 characters on the length is truncated: the strings may differ only beyond the characters
that are compared, and their lengths then say nothing about their order. `sorts_iff` says that the lists over
some strings are all sorted if and only if any two of the strings are `Decided`, which they are when one of
them is shorter (`decided_of_short`).
-/

namespace OmpSs.Mcxx.MergeSortStr

open Lib

/-- `none`: the index is not one of the array. -/
def readAt {α : Type*} (list : List α) (i : Int) : Option α :=
  if 0 ≤ i then list[i.toNat]? else none

def writeAt {α : Type*} (list : List α) (i : Int) (a : α) : Option (List α) :=
  if 0 ≤ i ∧ i.toNat < list.length then some (list.set i.toNat a) else none

/-- `n` indices from `k` on. -/
def indices : Nat → Int → List Int
  | 0, _ => []
  | n + 1, k => k :: indices n (k + 1)

/-- The values of `for (i = lower; i <= upper; ++i)`. -/
def upTo (lower upper : Int) : List Int := indices (upper + 1 - lower).toNat lower

/-- The third argument of `strncmp`: a length in an `int`, and then in a `size_t`. -/
def compared (s t : CString) : Nat :=
  let min := BitVec.ofNat 32 (if s.strlen < t.strlen then s.strlen else t.strlen)
  (min.signExtend 64).toNat

/-- The conditions of the merge loops: the string at `j` is taken. -/
def takesBack (ascending_order : Bool) (s t : CString) : Bool :=
  let res := s.strncmp t (compared s t)
  if ascending_order then res = .gt ∨ res = .eq ∧ t.strlen < s.strlen
  else res = .lt ∨ res = .eq ∧ s.strlen < t.strlen

structure Merge where
  list : List CString
  i : Int
  j : Int

/-- Source: the bodies of the merge loops (`string_utils.c:287`, `:308`). -/
def Merge.step (ascending_order : Bool) (aux_list : List CString) (m : Merge) (k : Int) : Option Merge :=
  (readAt aux_list m.i).bind fun s =>
  (readAt aux_list m.j).bind fun t =>
  if takesBack ascending_order s t then
    (writeAt m.list k t).map fun list => { m with list := list, j := m.j - 1 }
  else
    (writeAt m.list k s).map fun list => { m with list := list, i := m.i + 1 }

/-- Source: `private_fusion` (`string_utils.c:265`). -/
def privateFusion (ascending_order : Bool) (list : List CString) (ind_lower ind_upper : Int) :
    Option (List CString) :=
  let middle := ind_lower + (ind_upper - ind_lower).tdiv 2
  ((upTo ind_lower middle).mapM (readAt list)).bind fun lower_half =>
  ((upTo (middle + 1) ind_upper).mapM fun j => readAt list (ind_upper - j + middle + 1)).bind fun upper_half =>
  ((upTo ind_lower ind_upper).foldlM (Merge.step ascending_order (lower_half ++ upper_half))
    ⟨list, 0, ind_upper - ind_lower⟩).map Merge.list

/-- Source: `private_merge_sort_str` (`string_utils.c:333`). -/
def privateMergeSortStr (ascending_order : Bool) (list : List CString) (ind_lower ind_upper : Int) :
    Option (List CString) :=
  if 0 < ind_upper - ind_lower then
    (privateMergeSortStr ascending_order list ind_lower (ind_lower + (ind_upper - ind_lower).tdiv 2)).bind fun list =>
    (privateMergeSortStr ascending_order list (ind_lower + (ind_upper - ind_lower).tdiv 2 + 1) ind_upper).bind
      fun list => privateFusion ascending_order list ind_lower ind_upper
  else some list
termination_by (ind_upper - ind_lower).toNat
decreasing_by
  all_goals
    rw [Int.tdiv_eq_ediv_of_nonneg (by omega)]
    omega

/-- Source: `merge_sort_list_str` (`string_utils.c:344`). -/
def mergeSortListStr (list : List CString) (size : Int) (ascending_order : Bool) : Option (List CString) :=
  privateMergeSortStr ascending_order list 0 (size - 1)

/-! ## The loops -/

section
variable {α : Type*} {pre seg post : List α} {a : α} {k : Int}

theorem readAt_append (hk : k = pre.length) : readAt (pre ++ a :: post) k = some a := by
  rw [readAt, if_pos (by omega), hk, Int.toNat_natCast, List.getElem?_append_right le_rfl,
    Nat.sub_self, List.getElem?_cons_zero]

theorem writeAt_append {b : α} (hk : k = pre.length) :
    writeAt (pre ++ a :: post) k b = some (pre ++ b :: post) := by
  rw [writeAt, if_pos (by rw [List.length_append, List.length_cons]; omega), hk, Int.toNat_natCast,
    List.set_append_right _ _ le_rfl, Nat.sub_self, List.set_cons_zero]

theorem mapM_readAt (hk : k = pre.length) :
    (indices seg.length k).mapM (readAt (pre ++ seg ++ post)) = some seg := by
  induction seg generalizing pre k with
  | nil => rfl
  | cons a seg ih =>
    have hrest : (indices seg.length (k + 1)).mapM (readAt (pre ++ [a] ++ seg ++ post)) = some seg :=
      ih (by rw [List.length_append, List.length_singleton]; omega)
    simp only [List.append_assoc, List.cons_append, List.nil_append] at hrest ⊢
    rw [List.length_cons, indices, List.mapM_cons, readAt_append hk, hrest]
    rfl

/-- A part of the array read backwards. -/
theorem mapM_readAt_reverse {c : Int} (hc : c - k = pre.length + seg.length - 1) :
    (indices seg.length k).mapM (fun j => readAt (pre ++ seg ++ post) (c - j)) = some seg.reverse := by
  induction seg using List.reverseRecOn generalizing k post with
  | nil => rfl
  | append_singleton seg a ih =>
    rw [List.length_append, List.length_singleton] at hc ⊢
    have hrest : (indices seg.length (k + 1)).mapM (fun j => readAt (pre ++ seg ++ (a :: post)) (c - j)) =
        some seg.reverse := ih (by omega)
    have hread : readAt (pre ++ (seg ++ [a]) ++ post) (c - k) = some a := by
      rw [← List.append_assoc, List.append_assoc _ [a], List.singleton_append]
      exact readAt_append (by rw [List.length_append]; omega)
    simp only [List.append_assoc, List.singleton_append] at hrest hread ⊢
    rw [indices, List.mapM_cons, hread, hrest, List.reverse_append]
    rfl

end

section
variable {ascending_order : Bool} {pre seg post list : List CString}

/-- The loop takes the strings between `i` and `j` from the two ends. -/
theorem foldlM_step {a b : List CString} {n : Nat} {i j k : Int} (hn : seg.length = n) (hlist : list.length = n)
    (hi : i = a.length) (hj : j = i + n - 1) (hk : k = pre.length) :
    ((indices n k).foldlM (Merge.step ascending_order (a ++ seg ++ b)) ⟨pre ++ list ++ post, i, j⟩).map Merge.list =
      some (pre ++ takeEnds (takesBack ascending_order) n seg ++ post) := by
  induction n generalizing pre list seg a b i j k with
  | zero => rw [List.eq_nil_of_length_eq_zero hlist]; rfl
  | succ n ih =>
    obtain ⟨s, l, rfl⟩ := List.exists_cons_of_length_eq_add_one hn
    obtain ⟨old, list, rfl⟩ := List.exists_cons_of_length_eq_add_one hlist
    have hfirst : readAt (a ++ (s :: l) ++ b) i = some s := by
      rw [List.append_assoc]
      exact readAt_append hi
    have hlast : readAt (a ++ (s :: l) ++ b) j = some ((s :: l).getLast (List.cons_ne_nil s l)) := by
      have hlength : (s :: l).dropLast.length = (s :: l).length - 1 := List.length_dropLast
      conv_lhs => rw [← List.dropLast_append_getLast (List.cons_ne_nil s l)]
      rw [List.append_assoc, List.append_assoc, ← List.append_assoc]
      exact readAt_append (by rw [List.length_append]; omega)
    have hwrite : ∀ t, writeAt (pre ++ (old :: list) ++ post) k t = some (pre ++ [t] ++ list ++ post) := by
      intro t
      rw [List.append_assoc, List.cons_append, writeAt_append hk]
      simp
    have hpre : ∀ t : CString, k + 1 = (pre ++ [t]).length := by
      intro t
      rw [List.length_append, List.length_singleton]
      omega
    rw [indices, List.foldlM_cons, Merge.step, hfirst, hlast, takeEnds, Option.bind_some, Option.bind_some]
    split
    · -- The last string goes, and what is behind the segment grows.
      have hrest := @ih (pre ++ [(s :: l).getLast (List.cons_ne_nil s l)]) (s :: l).dropLast list a
        ((s :: l).getLast (List.cons_ne_nil s l) :: b) i (j - 1) (k + 1)
        (by rw [List.length_dropLast, hn]; rfl) (Nat.succ.inj hlist) hi (by omega) (hpre _)
      rw [List.append_assoc a, ← List.singleton_append (l := b), ← List.append_assoc _ _ b,
        List.dropLast_append_getLast, ← List.append_assoc a] at hrest
      rw [hwrite]
      refine Eq.trans hrest ?_
      simp
    · have hrest := @ih (pre ++ [s]) l list (a ++ [s]) b (i + 1) j (k + 1) (Nat.succ.inj hn)
        (Nat.succ.inj hlist) (by rw [List.length_append, List.length_singleton]; omega) (by omega) (hpre s)
      rw [List.append_assoc a, List.singleton_append] at hrest
      rw [hwrite]
      refine Eq.trans hrest ?_
      simp

/-- The strings of the list at `ind_lower`..`ind_upper` are merged. -/
theorem privateFusion_eq {xs ys : List CString} {ind_lower ind_upper : Int}
    (hmiddle : (xs.length : Int) = (ind_upper - ind_lower).tdiv 2 + 1)
    (hlower : ind_lower = pre.length) (hupper : ind_upper = ind_lower + xs.length + ys.length - 1) :
    privateFusion ascending_order (pre ++ (xs ++ ys) ++ post) ind_lower ind_upper =
      some (pre ++ takeEnds (takesBack ascending_order) (xs ++ ys.reverse).length (xs ++ ys.reverse) ++ post) := by
  have hxs : (ind_lower + (ind_upper - ind_lower).tdiv 2 + 1 - ind_lower).toNat = xs.length := by omega
  have hys : (ind_upper + 1 - (ind_lower + (ind_upper - ind_lower).tdiv 2 + 1)).toNat = ys.length := by omega
  have hall : (ind_upper + 1 - ind_lower).toNat = (xs ++ ys.reverse).length := by
    rw [List.length_append, List.length_reverse]
    omega
  have hfirst : (indices xs.length ind_lower).mapM (readAt (pre ++ xs ++ (ys ++ post))) = some xs :=
    mapM_readAt hlower
  have hsecond : (indices ys.length (ind_lower + (ind_upper - ind_lower).tdiv 2 + 1)).mapM
      (fun j => readAt (pre ++ (xs ++ ys) ++ post)
        (ind_upper - j + (ind_lower + (ind_upper - ind_lower).tdiv 2) + 1)) = some ys.reverse := by
    have hread : (indices ys.length (ind_lower + (ind_upper - ind_lower).tdiv 2 + 1)).mapM
        (fun j => readAt (pre ++ xs ++ ys ++ post)
          (ind_upper + (ind_lower + (ind_upper - ind_lower).tdiv 2) + 1 - j)) = some ys.reverse :=
      mapM_readAt_reverse (by rw [List.length_append]; omega)
    rw [List.append_assoc pre xs] at hread
    convert hread using 4
    omega
  rw [List.append_assoc, ← List.append_assoc xs, ← List.append_assoc] at hfirst
  have hmerge : ((indices (xs ++ ys.reverse).length ind_lower).foldlM
      (Merge.step ascending_order ([] ++ (xs ++ ys.reverse) ++ []))
        ⟨pre ++ (xs ++ ys) ++ post, 0, ind_upper - ind_lower⟩).map Merge.list = _ :=
    foldlM_step rfl (by simp) rfl (by rw [List.length_append, List.length_reverse]; omega) hlower
  rw [List.nil_append, List.append_nil] at hmerge
  rw [privateFusion, upTo, upTo, upTo, hxs, hys, hall, hfirst, Option.bind_some, hsecond, Option.bind_some,
    hmerge]

end

/-! ## The order -/

/-- The order that is asked for. -/
def before (ascending_order : Bool) (s t : CString) : Prop := if ascending_order then s ≤ t else t ≤ s

/-- Where the characters that are compared agree, the lengths are ordered as the strings. -/
def Decided (s t : CString) : Prop :=
  s.take (compared s t) = t.take (compared s t) → s.strlen ≤ t.strlen → s ≤ t

section
variable {ascending_order : Bool} {s t : CString}

instance : Std.Refl (before ascending_order) where
  refl s := by cases ascending_order <;> exact le_rfl

instance : IsTrans CString (before ascending_order) where
  trans s t u hst htu := by
    cases ascending_order
    · exact le_trans (α := CString) htu hst
    · exact le_trans (α := CString) hst htu

theorem compared_comm : compared s t = compared t s := by
  have hmin : (if s.strlen < t.strlen then s.strlen else t.strlen) =
      if t.strlen < s.strlen then t.strlen else s.strlen := by
    split <;> split <;> omega
  rw [compared, compared, hmin]

theorem takesBack_iff : takesBack ascending_order s t = true ↔
    before ascending_order t s ∧ s.take (compared s t) ≠ t.take (compared s t) ∨
      s.take (compared s t) = t.take (compared s t) ∧
        if ascending_order then t.strlen < s.strlen else s.strlen < t.strlen := by
  have hne := CString.lt_iff_take_lt (s := s) (t := t) (n := compared s t)
  have hne' := CString.lt_iff_take_lt (s := t) (t := s) (n := compared s t)
  cases ascending_order
  · simp only [takesBack, CString.strncmp, before, compare_lt_iff_lt, compare_eq_iff_eq, decide_eq_true_eq,
      Bool.false_eq_true, if_false]
    refine or_congr_left ⟨fun h => ?_, fun h => (hne h.2).1 ?_⟩
    · exact ⟨((hne (ne_of_lt h)).2 h).le, ne_of_lt h⟩
    · exact lt_of_le_of_ne h.1 fun hst => h.2 (by rw [hst])
  · simp only [takesBack, CString.strncmp, before, compare_gt_iff_gt, compare_eq_iff_eq, decide_eq_true_eq,
      if_true]
    refine or_congr_left ⟨fun h => ?_, fun h => (hne' h.2.symm).1 ?_⟩
    · exact ⟨((hne' (ne_of_lt h)).2 h).le, ne_of_gt h⟩
    · exact lt_of_le_of_ne h.1 fun hst => h.2 (by rw [hst])

theorem Decided.decides (hst : Decided s t) (hts : Decided t s) :
    Decides (takesBack ascending_order) (before ascending_order) s t := by
  have heq : s.take (compared s t) = t.take (compared s t) → t.strlen ≤ s.strlen → t ≤ s := by
    intro h
    rw [compared_comm] at h
    exact hts h.symm
  refine ⟨fun hback => ?_, fun hfront => ?_⟩
  · rcases takesBack_iff.1 hback with ⟨h, -⟩ | ⟨h, hlength⟩
    · exact h
    · cases ascending_order
      · exact hst h (le_of_lt hlength)
      · exact heq h (le_of_lt hlength)
  · rw [← Bool.not_eq_true, takesBack_iff, not_or, not_and, not_not, not_and] at hfront
    cases ascending_order
    · by_contra hnot
      exact hnot (heq (hfront.1 (le_of_not_ge hnot)) (not_lt.1 (hfront.2 (hfront.1 (le_of_not_ge hnot)))))
    · by_contra hnot
      exact hnot (hst (hfront.1 (le_of_not_ge hnot)) (not_lt.1 (hfront.2 (hfront.1 (le_of_not_ge hnot)))))

/-- Strings that are not decided stay in the wrong order. -/
theorem takesBack_of_not_decided (h : ¬ Decided s t) :
    (takesBack true s t = false ∧ ¬ before true s t) ∧ takesBack false t s = false ∧ ¬ before false t s := by
  simp only [Decided, Classical.not_imp] at h
  obtain ⟨htake, hlength, hlt⟩ := h
  rw [← Bool.not_eq_true, ← Bool.not_eq_true, takesBack_iff, takesBack_iff, compared_comm (s := t)]
  refine ⟨⟨?_, hlt⟩, ?_, hlt⟩
  · rintro (⟨-, hne⟩ | ⟨-, hlonger⟩)
    · exact hne htake
    · exact absurd hlonger (not_lt.2 hlength)
  · rintro (⟨-, hne⟩ | ⟨-, hlonger⟩)
    · exact hne htake.symm
    · exact absurd hlonger (not_lt.2 hlength)

/-- A length below 2^32 is compared whole: a negative `int` is a large `size_t`. -/
theorem decided_of_short (h : min s.strlen t.strlen < 2 ^ 32) : Decided s t := by
  intro htake hlength
  rw [min_eq_left hlength] at h
  have hcompared : s.strlen ≤ compared s t := by
    have hmin : (if s.strlen < t.strlen then s.strlen else t.strlen) = s.strlen := by
      split <;> omega
    rw [compared, hmin, BitVec.toNat_signExtend]
    have hwidth := Nat.mod_lt (s.strlen) (show 0 < 2 ^ 32 by decide)
    rw [BitVec.toNat_setWidth, BitVec.toNat_ofNat, Nat.mod_eq_of_lt h, Nat.mod_eq_of_lt (by omega)]
    exact Nat.le_add_right _ _
  have hs : s.take (compared s t) = s := CString.ext (List.take_of_length_le hcompared)
  rw [hs] at htake
  rw [htake]
  exact CString.take_le

end

/-! ## Sorting -/

section
variable {ascending_order : Bool} {pre seg post : List CString}

/-- A part of the array is sorted: the recursion ends, and the indices stay inside the array. -/
theorem privateMergeSortStr_eq_some {ind_lower ind_upper : Int} (hlower : ind_lower = pre.length)
    (hupper : ind_upper = ind_lower + seg.length - 1) :
    ∃ seg', privateMergeSortStr ascending_order (pre ++ seg ++ post) ind_lower ind_upper =
        some (pre ++ seg' ++ post) ∧ seg'.Perm seg ∧
      ((∀ s ∈ seg, ∀ t ∈ seg, Decided s t) → seg'.Pairwise (before ascending_order)) := by
  generalize hn : seg.length = n
  induction n using Nat.strong_induction_on generalizing pre seg post ind_lower ind_upper with
  | h n ih =>
    rw [privateMergeSortStr]
    split
    · next hlt =>
      -- The two halves; the first one is not the shorter one.
      have hhalf := Int.tdiv_eq_ediv_of_nonneg (b := 2) (Int.le_of_lt hlt)
      obtain ⟨xs, ys, rfl, hxs⟩ : ∃ xs ys, seg = xs ++ ys ∧
          (xs.length : Int) = (ind_upper - ind_lower).tdiv 2 + 1 := by
        refine ⟨seg.take ((ind_upper - ind_lower).tdiv 2 + 1).toNat, seg.drop _,
          (List.take_append_drop _ _).symm, ?_⟩
        rw [List.length_take]
        omega
      rw [List.length_append] at hupper hn
      obtain ⟨xs', hxs', hpermx, hsortedx⟩ := @ih xs.length (by omega) pre xs (ys ++ post) ind_lower
        (ind_lower + (ind_upper - ind_lower).tdiv 2) hlower (by omega) rfl
      have hlengthx := hpermx.length_eq
      obtain ⟨ys', hys', hpermy, hsortedy⟩ := @ih ys.length (by omega) (pre ++ xs') ys post
        (ind_lower + (ind_upper - ind_lower).tdiv 2 + 1) ind_upper (by rw [List.length_append]; omega)
        (by omega) rfl
      have hlengthy := hpermy.length_eq
      have hperm : (xs' ++ ys'.reverse).Perm (xs ++ ys) := hpermx.append ((List.reverse_perm ys').trans hpermy)
      have hfusion : privateFusion ascending_order (pre ++ (xs' ++ ys') ++ post) ind_lower ind_upper = _ :=
        privateFusion_eq (by omega) hlower (by omega)
      simp only [List.append_assoc] at hxs' hys' hfusion ⊢
      rw [hxs', Option.bind_some, hys', Option.bind_some, hfusion]
      refine ⟨_, rfl, (perm_takeEnds _ rfl).trans hperm, fun hdecided => ?_⟩
      have hbitonic : Bitonic (before ascending_order) (xs' ++ ys'.reverse) := by
        refine ⟨xs', ys', rfl, hsortedx fun s hs t ht => ?_, hsortedy fun s hs t ht => ?_⟩
        · exact hdecided s (List.mem_append_left _ hs) t (List.mem_append_left _ ht)
        · exact hdecided s (List.mem_append_right _ hs) t (List.mem_append_right _ ht)
      refine pairwise_takeEnds hbitonic (fun s hs t ht => ?_) rfl
      rw [hperm.mem_iff] at hs ht
      exact (hdecided s hs t ht).decides (hdecided t ht s hs)
    · next hle =>
      refine ⟨seg, rfl, List.Perm.refl seg, fun _ => ?_⟩
      match seg with
      | [] => exact List.Pairwise.nil
      | [s] => exact List.pairwise_singleton _ s
      | _ :: _ :: _ =>
        simp only [List.length_cons] at hupper
        omega

end

/-- The array is left sorted. -/
def Sorts (ascending_order : Bool) (list : List CString) : Prop :=
  ∃ list', mergeSortListStr list list.length ascending_order = some list' ∧ list'.Perm list ∧
    list'.Pairwise (before ascending_order)

theorem mergeSortListStr_eq_some (ascending_order : Bool) (list : List CString) : ∃ list',
    mergeSortListStr list list.length ascending_order = some list' ∧ list'.Perm list ∧
      ((∀ s ∈ list, ∀ t ∈ list, Decided s t) → list'.Pairwise (before ascending_order)) := by
  have h := @privateMergeSortStr_eq_some ascending_order [] list [] 0 (list.length - 1) rfl (by omega)
  simpa [mergeSortListStr] using h

theorem sorts_of_decided {ascending_order : Bool} {list : List CString}
    (h : ∀ s ∈ list, ∀ t ∈ list, Decided s t) : Sorts ascending_order list := by
  obtain ⟨list', hlist', hperm, hsorted⟩ := mergeSortListStr_eq_some ascending_order list
  exact ⟨list', hlist', hperm, hsorted h⟩

theorem mergeSortListStr_pair {ascending_order : Bool} {s t : CString} (h : takesBack ascending_order s t = false) :
    mergeSortListStr [s, t] 2 ascending_order = some [s, t] := by
  have hfusion : privateFusion ascending_order ([] ++ ([s] ++ [t]) ++ []) 0 1 = _ :=
    privateFusion_eq rfl rfl rfl
  have hends : takeEnds (takesBack ascending_order) 2 [s, t] = [s, t] := by
    rw [takeEnds, if_neg (by simp [h]), takeEnds]
    split <;> rfl
  rw [mergeSortListStr, privateMergeSortStr, if_pos (by decide), privateMergeSortStr, if_neg (by decide),
    Option.bind_some, privateMergeSortStr, if_neg (by decide), Option.bind_some]
  refine Eq.trans hfusion ?_
  simp [hends]

/-- For every list the indices stay inside the array and the strings are permuted; the lists over some
strings are all sorted if and only if the comparisons decide between any two of them. -/
theorem sorts_iff (ascending_order : Bool) (strings : Set CString) :
    (∀ list : List CString, ∃ list',
      mergeSortListStr list list.length ascending_order = some list' ∧ list'.Perm list) ∧
    ((∀ list : List CString, (∀ s ∈ list, s ∈ strings) → Sorts ascending_order list) ↔
      ∀ s ∈ strings, ∀ t ∈ strings, Decided s t) := by
  refine ⟨fun list => ?_, fun h s hs t ht => ?_, fun h list hlist => ?_⟩
  · obtain ⟨list', hlist', hperm, -⟩ := mergeSortListStr_eq_some ascending_order list
    exact ⟨list', hlist', hperm⟩
  · by_contra hnot
    obtain ⟨⟨hasc, hs'⟩, hdesc, ht'⟩ := takesBack_of_not_decided hnot
    cases ascending_order
    · obtain ⟨list', hlist', -, hsorted⟩ := h [t, s] (by simp [hs, ht])
      rw [show (([t, s] : List CString).length : Int) = 2 from rfl, mergeSortListStr_pair hdesc] at hlist'
      obtain rfl := Option.some.inj hlist'
      exact ht' (List.rel_of_pairwise_cons hsorted List.mem_cons_self)
    · obtain ⟨list', hlist', -, hsorted⟩ := h [s, t] (by simp [hs, ht])
      rw [show (([s, t] : List CString).length : Int) = 2 from rfl, mergeSortListStr_pair hasc] at hlist'
      obtain rfl := Option.some.inj hlist'
      exact hs' (List.rel_of_pairwise_cons hsorted List.mem_cons_self)
  · exact sorts_of_decided fun s hs t ht => h s (hlist s hs) t (hlist t ht)

/-- A string of one character only. -/
def copies (n : Nat) (c : UInt8) (hc : 0 ≠ c) : CString :=
  ⟨List.replicate n c, fun h => hc (List.eq_of_mem_replicate h)⟩

/-- No character is compared, and the shorter string stays before the longer one. -/
theorem not_sorts_long : ¬ Sorts true [copies (2 ^ 32) 98 (by decide), copies (2 ^ 32 + 1) 97 (by decide)] := by
  have hlength : ∀ n c hc, (copies n c hc).strlen = n := fun n c hc => List.length_replicate
  have hlt : ∀ n m, copies (m + 1) 97 (by decide) < copies (n + 1) 98 (by decide) := by
    intro n m
    rw [CString.lt_iff]
    change (List.replicate (m + 1) (97 : UInt8)).map UInt8.toNat < (List.replicate (n + 1) 98).map UInt8.toNat
    rw [List.replicate_succ, List.replicate_succ, List.map_cons, List.map_cons, List.cons_lt_cons_iff]
    exact .inl (by decide)
  have hcompared : compared (copies (2 ^ 32) 98 (by decide)) (copies (2 ^ 32 + 1) 97 (by decide)) = 0 := by
    rw [compared, hlength, hlength, if_pos (Nat.lt_succ_self _)]
    decide
  have hnot : ¬ Decided (copies (2 ^ 32) 98 (by decide)) (copies (2 ^ 32 + 1) 97 (by decide)) := by
    intro h
    rw [Decided, hcompared, hlength, hlength] at h
    exact absurd (hlt (2 ^ 32 - 1) (2 ^ 32)) (not_lt.2 (h rfl (Nat.le_succ _)))
  obtain ⟨⟨hfront, hbefore⟩, -⟩ := takesBack_of_not_decided hnot
  rintro ⟨list', hlist', -, hsorted⟩
  rw [List.length_cons, List.length_singleton] at hlist'
  rw [show (((1 + 1 : Nat) : Int)) = 2 from rfl, mergeSortListStr_pair hfront] at hlist'
  obtain rfl := Option.some.inj hlist'
  exact hbefore (List.rel_of_pairwise_cons hsorted List.mem_cons_self)

end OmpSs.Mcxx.MergeSortStr
