import OmpSs.Core.RegionDict
import Mathlib.Data.List.Induction

/-!
# The ids of an object's regions

`addRegion` and `checkIfRegionExists` (`nanox-mx/src/core/regiondict.hpp`) look for a region's description
in the tree of its dictionary; the first adds it where it is missing. So a description has one id and an
id one description, whatever the calls (`Inv`). What `checkIfRegionExists` finds it puts into a `bool`,
and 1 is the id of the whole object: the answer is right for a region that was not added and for the
whole object, and for no other (`rightAnswer_check_iff`).
-/

namespace OmpSs.Core

open Lib

namespace RegionDictionary

/-! ## The program -/

/-- Source: `ContainerDense::checkIfRegionExists` (`regiondict.hpp:250`). -/
def checkIfRegionExists (d : RegionDictionary) (box : List Span) : Nat :=
  -- the id is put into a variable of type `bool`
  let result : Bool := (RegionNode.checkNode d.sons (path box)).getD 0 != 0
  result.toNat

/-- A call that returns the id of a description. -/
inductive Lookup
  | addRegion (box : List Span)
  | checkIfRegionExists (box : List Span)
deriving DecidableEq

/-- The description a call is given. -/
def Lookup.box : Lookup → List Span
  | .addRegion box | .checkIfRegionExists box => box

/-- What a call returns and the dictionary after it. -/
def lookup (d : RegionDictionary) : Lookup → Nat × RegionDictionary
  | .addRegion box => d.addRegion box
  | .checkIfRegionExists box => (d.checkIfRegionExists box, d)

/-- The calls on a dictionary so far, each with what it returned, and the dictionary after them. -/
structure History where
  calls : List (Lookup × Nat)
  dict : RegionDictionary

/-- The history after one more call. -/
def History.after (h : History) (c : Lookup) : History :=
  ⟨h.calls ++ [(c, (h.dict.lookup c).1)], (h.dict.lookup c).2⟩

/-- The description of the whole object. -/
def whole (sizes : List Nat) : List Span := sizes.map fun size => ⟨0, size⟩

/-- The history of a new dictionary, whose constructor adds the whole object. -/
def created (sizes : List Nat) : History := History.after ⟨[], {}⟩ (.addRegion (whole sizes))

/-! ## Right answers -/

/-- What a call must return after the calls `past`: from `addRegion`, the id of an earlier call for the
same description and for no other; from `checkIfRegionExists`, the id that `addRegion` returned for the
description, or 0 where it was never added. -/
def RightAnswer (past : List (Lookup × Nat)) : Lookup → Nat → Prop
  | .addRegion box, id => ∀ box' id', (.addRegion box', id') ∈ past → (id = id' ↔ box = box')
  | .checkIfRegionExists box, id =>
    (∀ id', (.addRegion box, id') ∈ past → id = id') ∧ ((∀ id', (.addRegion box, id') ∉ past) → id = 0)

/-- Every call returned what it must, and each id still has the description it was given for. -/
structure History.Right (h : History) : Prop where
  answers : ∀ past c id rest, h.calls = past ++ (c, id) :: rest → RightAnswer past c id
  describes : ∀ box id, (.addRegion box, id) ∈ h.calls → h.dict.HasBox id box

variable {n : Nat} {sizes : List Nat} {h : History} {c : Lookup} {box : List Span} {id : Nat}

/-- What holds between the calls: the tree numbers the regions, these are those that were added, and the
first is the whole object. -/
structure History.Inv (sizes : List Nat) (h : History) : Prop where
  numbered : Numbered sizes.length h.dict
  added : ∀ id box, h.dict.HasBox id box ↔ (.addRegion box, id) ∈ h.calls
  first : h.dict.HasBox 1 (whole sizes)

namespace History

/-- A call changes the regions only where it adds one that is missing. -/
theorem inv_after {sizes : List Nat} (hn : 0 < sizes.length) (hnum : Numbered sizes.length h.dict)
    (hadded : ∀ id box, h.dict.HasBox id box ↔ (.addRegion box, id) ∈ h.calls)
    (hc : c.box.length = sizes.length) :
    Numbered sizes.length (h.after c).dict ∧
      (∀ id box, (h.after c).dict.HasBox id box ↔ (.addRegion box, id) ∈ (h.after c).calls) ∧
      (∀ id box, h.dict.HasBox id box → (h.after c).dict.HasBox id box) := by
  cases c with
  | checkIfRegionExists box =>
    refine ⟨hnum, fun id' box' => ?_, fun _ _ h => h⟩
    rw [after, List.mem_append, ← hadded id' box']
    simp [lookup]
  | addRegion box =>
    have hlen : box.length = sizes.length := hc
    by_cases hold : ∃ id, h.dict.HasBox id box
    · obtain ⟨id, hid⟩ := hold
      obtain ⟨sons, hr, hnum'⟩ := hnum.addRegion_old hn hlen hid
      simp only [after, lookup, hr]
      refine ⟨hnum', fun id' box' => ?_, fun _ _ h => h⟩
      rw [List.mem_append, ← hadded id' box', List.mem_singleton, Prod.mk.injEq, Lookup.addRegion.injEq]
      constructor
      · exact .inl
      · rintro (h | ⟨rfl, rfl⟩)
        · exact h
        · exact hid
    · obtain ⟨sons, hr, hnum'⟩ := hnum.addRegion_new hn hlen fun id hid => hold ⟨id, hid⟩
      simp only [after, lookup, hr]
      refine ⟨hnum', fun id' box' => ?_, fun _ _ h => hasBox_append.2 (.inl h)⟩
      rw [hasBox_append, List.mem_append, ← hadded id' box', List.mem_singleton, Prod.mk.injEq,
        Lookup.addRegion.injEq, and_comm (a := id' = _)]

theorem Inv.after (hi : Inv sizes h) (hn : 0 < sizes.length) (hc : c.box.length = sizes.length) :
    Inv sizes (h.after c) := by
  obtain ⟨hnum, hadded, hkeeps⟩ := inv_after hn hi.numbered hi.added hc
  exact ⟨hnum, hadded, hkeeps _ _ hi.first⟩

theorem length_whole (sizes : List Nat) : (whole sizes).length = sizes.length := List.length_map ..

theorem inv_created (hn : 0 < sizes.length) : Inv sizes (created sizes) := by
  have hempty : ∀ id box, ¬ HasBox {} id box := by
    rintro id box ⟨leaf, hleaf, -⟩
    simp [getRegionNode] at hleaf
  obtain ⟨hnum, hadded, -⟩ := inv_after (h := ⟨[], {}⟩) (c := .addRegion (whole sizes)) hn
    valid_empty.numbers (fun id box => by simp [hempty]) (length_whole sizes)
  exact ⟨hnum, hadded, hasBox_new (List.ne_nil_of_length_pos hn)⟩

/-- `addRegion` answers as it must. -/
theorem Inv.rightAnswer_add (hi : Inv sizes h) (hn : 0 < sizes.length) (hlen : box.length = sizes.length) :
    RightAnswer h.calls (.addRegion box) (h.dict.addRegion box).1 := by
  intro box' id' hmem
  obtain ⟨-, hadded, hkeeps⟩ := inv_after (c := .addRegion box) hn hi.numbered hi.added hlen
  have hbox' := (hi.added id' box').2 hmem
  have hbox : (h.dict.addRegion box).2.HasBox (h.dict.addRegion box).1 box :=
    (hadded _ _).2 (by simp [History.after, lookup])
  constructor
  · intro heq
    rw [heq] at hbox
    exact hbox.unique (hkeeps id' box' hbox')
  · rintro rfl
    obtain ⟨sons, hr, -⟩ := hi.numbered.addRegion_old hn hlen hbox'
    rw [hr]

/-- What `checkIfRegionExists` returns: 1 for every region there is. -/
theorem Inv.checkIfRegionExists_eq (hi : Inv sizes h) (hlen : box.length = sizes.length) :
    ((∃ id, (.addRegion box, id) ∈ h.calls) → h.dict.checkIfRegionExists box = 1) ∧
      ((∀ id, (.addRegion box, id) ∉ h.calls) → h.dict.checkIfRegionExists box = 0) := by
  constructor
  · rintro ⟨id, hid⟩
    have hbox := (hi.added id box).2 hid
    have hne := hbox.pos.ne'
    simp [checkIfRegionExists, (hi.numbered.numbered box hlen id).2 hbox, hne]
  · intro hnone
    cases hcheck : RegionNode.checkNode h.dict.sons (path box) with
    | none => simp [checkIfRegionExists, hcheck]
    | some id =>
      have hbox := (hi.numbered.numbered box hlen id).1 hcheck
      exact absurd ((hi.added id box).1 hbox) (hnone id)

/-- `checkIfRegionExists` answers as it must where the region was not added or is the whole object. -/
theorem Inv.rightAnswer_check_iff (hi : Inv sizes h) (hlen : box.length = sizes.length) :
    RightAnswer h.calls (.checkIfRegionExists box) (h.dict.checkIfRegionExists box) ↔
      ((∃ id, (.addRegion box, id) ∈ h.calls) → box = whole sizes) := by
  obtain ⟨hone, hzero⟩ := hi.checkIfRegionExists_eq hlen
  constructor
  · rintro ⟨hsame, -⟩ ⟨id, hid⟩
    have hid1 : 1 = id := (hone ⟨id, hid⟩).symm.trans (hsame id hid)
    have hbox := (hi.added id box).2 hid
    rw [← hid1] at hbox
    exact hbox.unique hi.first
  · intro hwhole
    refine ⟨fun id hid => ?_, hzero⟩
    have hbox := (hi.added id box).2 hid
    obtain rfl := hwhole ⟨id, hid⟩
    have hcheck := (hi.numbered.numbered _ hlen id).2 hbox
    rw [(hi.numbered.numbered _ hlen 1).2 hi.first] at hcheck
    rw [hone ⟨id, hid⟩]
    exact Option.some.inj hcheck

/-! ## Every sequence of calls -/

/-- A call keeps a history right if it returns what it must. -/
theorem Inv.right_after_iff (hi : Inv sizes h) (hn : 0 < sizes.length) (hc : c.box.length = sizes.length) :
    (h.after c).Right ↔ h.Right ∧ RightAnswer h.calls c (h.dict.lookup c).1 := by
  constructor
  · intro hr
    obtain ⟨hold, hnew⟩ := (forall_event_append (P := fun past x => RightAnswer past x.1 x.2)).1
      fun past x rest => hr.answers past x.1 x.2 rest
    exact ⟨⟨fun past c id rest => hold past (c, id) rest, fun box id hmem => (hi.added id box).2 hmem⟩,
      hnew⟩
  · rintro ⟨hr, hnew⟩
    refine ⟨fun past c id rest => ?_, fun box id hmem => ((hi.after hn hc).added id box).2 hmem⟩
    exact (forall_event_append (P := fun past x => RightAnswer past x.1 x.2)).2
      ⟨fun past x rest => hr.answers past x.1 x.2 rest, hnew⟩ past (c, id) rest

/-- The invariant after any calls, and the descriptions of the history's calls. -/
theorem inv_foldl (hn : 0 < sizes.length) (calls : List Lookup)
    (hcalls : ∀ c ∈ calls, c.box.length = sizes.length) :
    Inv sizes (calls.foldl after (created sizes)) ∧
      (calls.foldl after (created sizes)).calls.map (·.1) = .addRegion (whole sizes) :: calls := by
  induction calls using List.reverseRecOn with
  | nil => exact ⟨inv_created hn, rfl⟩
  | append_singleton calls c ih =>
    obtain ⟨hi, hmap⟩ := ih fun c hc => hcalls c (by simp [hc])
    rw [List.foldl_append, List.foldl_cons, List.foldl_nil]
    refine ⟨hi.after hn (hcalls c (by simp)), ?_⟩
    rw [History.after, List.map_append, hmap]
    rfl

theorem right_created (hn : 0 < sizes.length) : (created sizes).Right := by
  refine ⟨fun past c id rest hcalls => ?_, fun box id hmem => ((inv_created hn).added id box).2 hmem⟩
  cases past with
  | nil =>
    obtain ⟨⟨rfl, rfl⟩, -⟩ : (Lookup.addRegion (whole sizes) = c ∧ _ = id) ∧ _ := by
      simpa [created, History.after] using hcalls
    rintro box' id' hmem
    cases hmem
  | cons x past => simp [created, History.after] at hcalls

end History

/-- The calls, after those of `past`, whose answer is right: `checkIfRegionExists` is asked of a region that
was not added, or of the whole object. -/
def Lookup.Answerable (sizes : List Nat) (past : List Lookup) : Lookup → Prop
  | .addRegion _ => True
  | .checkIfRegionExists box => .addRegion box ∈ past → box = whole sizes

instance (past : List Lookup) (c : Lookup) : Decidable (c.Answerable sizes past) := by
  cases c with
  | addRegion box => exact inferInstanceAs (Decidable True)
  | checkIfRegionExists box => exact inferInstanceAs (Decidable (_ → _))

open History in
/-- In any sequence of calls on a new dictionary every answer is right, and every id keeps its
description, if and only if `checkIfRegionExists` is asked of no region that was added, but for the whole
object. -/
theorem lookups_right_iff (hsizes : sizes ≠ []) {calls : List Lookup}
    (hcalls : ∀ c ∈ calls, c.box.length = sizes.length) :
    (calls.foldl History.after (created sizes)).Right ↔
      ∀ past c rest, calls = past ++ c :: rest → c.Answerable sizes past := by
  have hn : 0 < sizes.length := List.length_pos_of_ne_nil hsizes
  induction calls using List.reverseRecOn with
  | nil => simpa using right_created hn
  | append_singleton calls c ih =>
    have hold : ∀ c ∈ calls, c.box.length = sizes.length := fun c hc => hcalls c (by simp [hc])
    have hc : c.box.length = sizes.length := hcalls c (by simp)
    obtain ⟨hi, hmap⟩ := inv_foldl hn calls hold
    rw [List.foldl_append, List.foldl_cons, List.foldl_nil, hi.right_after_iff hn hc,
      forall_event_append (P := Lookup.Answerable sizes)]
    refine and_congr (ih hold) ?_
    cases c with
    | addRegion box => exact ⟨fun _ => trivial, fun _ => hi.rightAnswer_add hn hc⟩
    | checkIfRegionExists box =>
      have hlen : box.length = sizes.length := hc
      have hmem : (∃ id, (.addRegion box, id) ∈ (calls.foldl History.after (created sizes)).calls) ↔
          box = whole sizes ∨ .addRegion box ∈ calls := by
        rw [← Lookup.addRegion.injEq, ← List.mem_cons, ← hmap, List.mem_map]
        exact ⟨fun ⟨id, hid⟩ => ⟨_, hid, rfl⟩, fun ⟨x, hx, heq⟩ => ⟨x.2, heq ▸ hx⟩⟩
      change RightAnswer _ _ (checkIfRegionExists _ box) ↔ (_ → _)
      rw [hi.rightAnswer_check_iff hlen, hmem]
      constructor
      · exact fun h hadd => h (.inr hadd)
      · rintro h (hwhole | hadd)
        · exact hwhole
        · exact h hadd

/-- An object of ten elements: two regions are added, one of them again, and a third is asked for. -/
theorem lookups_right_absent :
    ([.addRegion [⟨2, 3⟩], .addRegion [⟨4, 1⟩], .checkIfRegionExists [⟨3, 3⟩], .addRegion [⟨2, 3⟩],
      .checkIfRegionExists [⟨0, 10⟩]].foldl History.after (created [10])).Right := by
  exact (lookups_right_iff (by decide) (by decide)).2 (forall_event_iff_take.2 (by decide))

/-- A region that was added has id 2, and `checkIfRegionExists` returns 1 for it. -/
theorem check_second_region :
    ¬ ([.addRegion [⟨2, 3⟩], .checkIfRegionExists [⟨2, 3⟩]].foldl History.after (created [10])).Right := by
  intro h
  have hanswer := (h.answers [(.addRegion [⟨0, 10⟩], 1), (.addRegion [⟨2, 3⟩], 2)]
    (.checkIfRegionExists [⟨2, 3⟩]) 1 [] (by decide)).1 2 (by decide)
  cases hanswer

end RegionDictionary

end OmpSs.Core
