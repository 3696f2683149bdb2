import Mathlib.Data.List.Basic
import Mathlib.Logic.Function.Basic
import Mathlib.Order.Nat
import Mathlib.Tactic.Ring

/-!
# The source of a transfer

`Router::getSource` (`nanox-mx/src/core/router.hpp:41`) chooses, among the memory spaces that hold a valid
copy, the one to copy from. The members are split into two parts that share one array, one filled from the
front and one from the back, and a loop over one part takes the member with the least transfers so far.

The parts are called local and remote locations (`router.hpp:48`), and a destination on node 0 takes its
data from the first part. But the test of the split puts the host and the remote nodes there, and the
accelerators of node 0 into the other part (`classify_eq`). `getSource_sound_iff` says when the choice is
one within the node all the same.
-/

namespace OmpSs.Core.Router

/-! ## The program -/

/-- A `std::set<memory_space_id_t>`, in the order of its iterator. -/
structure LocationSet where
  ids : List Nat
  sorted : ids.Pairwise (· < ·)

/-- Source: `Router` (`router_decl.hpp:29`): the last source and the number of transfers from each memory
space, of type `unsigned int`. -/
structure State where
  lastSource : Nat := 2 ^ 32 - 1
  memSpaces : Nat → Nat := fun _ => 0

/-- The array of `getSource` and the two indices into it. -/
structure Split where
  tmpLocations : List Nat
  localLocationsIdx : Nat
  remoteLocationsIdx : Int
deriving DecidableEq

section
-- the node number of each separate memory address space
variable (getNodeNumber : Nat → Nat)

/-- Source: `destination_node` and `selected_node` (`router.hpp:44`, `:89`). -/
def nodeOf (id : Nat) : Nat := if id ≠ 0 then getNodeNumber id else 0

/-- The test of the split (`router.hpp:53`). -/
def isFront (id : Nat) : Bool := id == 0 || getNodeNumber id != 0

/-- One round of the loop that splits the members (`router.hpp:51`). -/
def classifyOne (t : Split) (id : Nat) : Split :=
  if isFront getNodeNumber id then
    { t with tmpLocations := t.tmpLocations.set t.localLocationsIdx id
             localLocationsIdx := t.localLocationsIdx + 1 }
  else
    { t with tmpLocations := t.tmpLocations.set t.remoteLocationsIdx.toNat id
             remoteLocationsIdx := t.remoteLocationsIdx - 1 }

/-- The loop over the members. The array starts uninitialised, which is 0 here. -/
def classify (ids : List Nat) : Split :=
  ids.foldl (classifyOne getNodeNumber) ⟨List.replicate ids.length 0, 0, ids.length - 1⟩

/-- The loop that takes the location with the least transfers, the first of those. -/
def leastUsed (memSpaces : Nat → Nat) (selected : Nat) (locations : List Nat) : Nat :=
  locations.foldl (fun selected id => if memSpaces id < memSpaces selected then id else selected) selected

/-- The choice among several members (`router.hpp:63` to `:84`). -/
def choose (memSpaces : Nat → Nat) (destination : Nat) (t : Split) : Nat :=
  let start := (t.remoteLocationsIdx + 1).toNat
  if destination = 0 ∨ nodeOf getNodeNumber destination = 0 then
    if t.localLocationsIdx = 0 then
      leastUsed memSpaces (t.tmpLocations.getD start 0) (t.tmpLocations.drop start)
    else if t.localLocationsIdx = 1 then t.tmpLocations.getD (t.localLocationsIdx - 1) 0
    else leastUsed memSpaces (t.tmpLocations.getD 0 0) (t.tmpLocations.take t.localLocationsIdx)
  else leastUsed memSpaces (t.tmpLocations.getD 0 0) (t.tmpLocations.drop start)

/-- Source: `Router::getSource` (`router.hpp:41`): the memory space selected, and the router after the
call. -/
def getSource (s : State) (destination : Nat) (locs : LocationSet) : Nat × State :=
  let selected :=
    if 1 < locs.ids.length then choose getNodeNumber s.memSpaces destination (classify getNodeNumber locs.ids)
    else locs.ids.getD 0 0
  (selected,
    if nodeOf getNodeNumber selected = 0 ∧ nodeOf getNodeNumber destination = 0 then s
    else
      { lastSource := selected
        memSpaces := Function.update s.memSpaces selected ((s.memSpaces selected + 1) % 2 ^ 32) })

/-! ## What a source should be -/

/-- A member of the set; on node 0 for a destination on node 0, and not an accelerator of node 0 for a
destination on another node, where the set has such members. -/
structure Sound (destination : Nat) (locs : LocationSet) (selected : Nat) : Prop where
  mem : selected ∈ locs.ids
  near : nodeOf getNodeNumber destination = 0 → (∃ m ∈ locs.ids, nodeOf getNodeNumber m = 0) →
    nodeOf getNodeNumber selected = 0
  far : nodeOf getNodeNumber destination ≠ 0 → (∃ m ∈ locs.ids, m = 0 ∨ nodeOf getNodeNumber m ≠ 0) →
    selected = 0 ∨ nodeOf getNodeNumber selected ≠ 0

/-- For a destination on node 0: the members are all on node 0 or all on other nodes, or the host is one
and has no more transfers than any of those on other nodes. -/
def NearOk (memSpaces : Nat → Nat) (locs : LocationSet) : Prop :=
  (∀ m ∈ locs.ids, nodeOf getNodeNumber m ≠ 0) ∨ (∀ m ∈ locs.ids, nodeOf getNodeNumber m = 0) ∨
    (0 ∈ locs.ids ∧ ∀ m ∈ locs.ids, nodeOf getNodeNumber m ≠ 0 → memSpaces 0 ≤ memSpaces m)

/-- For a destination on another node: the members are all accelerators of node 0, or the first one that
is not has no more transfers than any of those that are. -/
def FarOk (memSpaces : Nat → Nat) (locs : LocationSet) : Prop :=
  (∀ m ∈ locs.ids, isFront getNodeNumber m = false) ∨
    ∃ m ∈ locs.ids, isFront getNodeNumber m = true ∧
      (∀ m' ∈ locs.ids, isFront getNodeNumber m' = true → m ≤ m') ∧
      ∀ a ∈ locs.ids, isFront getNodeNumber a = false → memSpaces m ≤ memSpaces a

/-! ## The split -/

/-- The members of the first part, and those of the second. -/
def front (ids : List Nat) : List Nat := ids.filter (isFront getNodeNumber)

def back (ids : List Nat) : List Nat := ids.filter fun id => !isFront getNodeNumber id

variable {getNodeNumber} {s : State} {destination : Nat} {locs : LocationSet} {ids : List Nat}

/-- The rounds for `ids`, on an array with room for them between what has been written at its two
ends. -/
theorem foldl_classifyOne (getNodeNumber : Nat → Nat) (ids f m b : List Nat) (r : Int)
    (hm : m.length = ids.length) (hr : r = f.length + m.length - 1) :
    ids.foldl (classifyOne getNodeNumber) ⟨f ++ m ++ b, f.length, r⟩ =
      ⟨f ++ front getNodeNumber ids ++ ((back getNodeNumber ids).reverse ++ b),
        (f ++ front getNodeNumber ids).length, (f ++ front getNodeNumber ids).length - 1⟩ := by
  induction ids generalizing f m b r with
  | nil =>
    obtain rfl : m = [] := List.length_eq_zero_iff.1 hm
    simp [front, back, hr]
  | cons id ids ih =>
    rw [List.foldl_cons]
    cases hid : isFront getNodeNumber id with
    | true =>
      obtain ⟨x, m, rfl⟩ := List.exists_cons_of_length_eq_add_one hm
      have harr : (f ++ x :: m ++ b).set f.length id = (f ++ [id]) ++ m ++ b := by
        rw [List.append_assoc, List.set_append_right _ _ (le_refl _), Nat.sub_self]
        simp
      have hround : classifyOne getNodeNumber ⟨f ++ x :: m ++ b, f.length, r⟩ id =
          ⟨(f ++ [id]) ++ m ++ b, (f ++ [id]).length, r⟩ := by
        rw [classifyOne, if_pos hid, harr, List.length_append, List.length_singleton]
      rw [hround, ih _ _ _ _ (by simpa using hm) (by simp [hr]; ring)]
      simp [front, back, hid]
    | false =>
      obtain ⟨m, x, rfl⟩ : ∃ m' x, m = m' ++ [x] :=
        ⟨m.dropLast, m.getLast (List.ne_nil_of_length_eq_add_one hm), (List.dropLast_append_getLast _).symm⟩
      have hidx : r.toNat = (f ++ m).length := by
        simp only [hr, List.length_append, List.length_singleton]
        omega
      have harr : (f ++ (m ++ [x]) ++ b).set (f ++ m).length id = f ++ m ++ (id :: b) := by
        rw [← List.append_assoc f, List.append_assoc (f ++ m), List.set_append_right _ _ (le_refl _),
          Nat.sub_self]
        simp
      have hround : classifyOne getNodeNumber ⟨f ++ (m ++ [x]) ++ b, f.length, r⟩ id =
          ⟨f ++ m ++ (id :: b), f.length, r - 1⟩ := by
        rw [classifyOne, if_neg (by simp [hid]), hidx, harr]
      rw [hround, ih _ _ _ _ (by simpa using hm) (by simp [hr]; ring)]
      simp [front, back, hid]

/-- The first part of the array holds the host and the remote nodes, in order; the second part the
accelerators of node 0, the last one first. -/
theorem classify_eq (ids : List Nat) : classify getNodeNumber ids =
    ⟨front getNodeNumber ids ++ (back getNodeNumber ids).reverse, (front getNodeNumber ids).length,
      (front getNodeNumber ids).length - 1⟩ := by
  have h := foldl_classifyOne getNodeNumber ids [] (List.replicate ids.length 0) []
    (ids.length - 1) List.length_replicate (by simp)
  simpa [classify] using h

/-! ## The loop over one part -/

section
variable {memSpaces : Nat → Nat} {selected : Nat} {l : List Nat}

theorem leastUsed_cons (selected id : Nat) (l : List Nat) : leastUsed memSpaces selected (id :: l) =
    leastUsed memSpaces (if memSpaces id < memSpaces selected then id else selected) l := rfl

theorem leastUsed_mem (selected : Nat) (l : List Nat) :
    leastUsed memSpaces selected l ∈ selected :: l := by
  induction l generalizing selected with
  | nil => exact List.mem_cons_self
  | cons id l ih =>
    rw [leastUsed_cons]
    rcases List.mem_cons.1 (ih (if memSpaces id < memSpaces selected then id else selected)) with h | h
    · rw [h]
      split <;> simp
    · simp [h]

theorem leastUsed_le (memSpaces : Nat → Nat) (selected : Nat) (l : List Nat) :
    memSpaces (leastUsed memSpaces selected l) ≤ memSpaces selected ∧
      ∀ id ∈ l, memSpaces (leastUsed memSpaces selected l) ≤ memSpaces id := by
  induction l generalizing selected with
  | nil => exact ⟨le_refl _, by simp⟩
  | cons id l ih =>
    rw [leastUsed_cons]
    obtain ⟨hself, hrest⟩ := ih (if memSpaces id < memSpaces selected then id else selected)
    have hmin : memSpaces (if memSpaces id < memSpaces selected then id else selected) ≤ memSpaces selected ∧
        memSpaces (if memSpaces id < memSpaces selected then id else selected) ≤ memSpaces id := by
      split <;> omega
    refine ⟨hself.trans hmin.1, fun x hx => ?_⟩
    rcases List.mem_cons.1 hx with rfl | hx
    · exact hself.trans hmin.2
    · exact hrest x hx

/-- The first candidate stays if no other has fewer transfers. -/
theorem leastUsed_of_le (h : ∀ id ∈ l, memSpaces selected ≤ memSpaces id) :
    leastUsed memSpaces selected l = selected := by
  induction l with
  | nil => rfl
  | cons id l ih =>
    rw [leastUsed_cons, if_neg (not_lt.2 (h id List.mem_cons_self))]
    exact ih fun id hid => h id (List.mem_cons_of_mem _ hid)

/-- Another one with fewer transfers takes its place. -/
theorem leastUsed_of_lt {id : Nat} (hid : id ∈ l) (h : memSpaces id < memSpaces selected) :
    leastUsed memSpaces selected l ∈ l ∧ memSpaces (leastUsed memSpaces selected l) < memSpaces selected := by
  have hlt := ((leastUsed_le memSpaces selected l).2 id hid).trans_lt h
  refine ⟨(List.mem_cons.1 (leastUsed_mem selected l)).resolve_left fun heq => ?_, hlt⟩
  rw [heq] at hlt
  exact lt_irrefl _ hlt

end

/-! ## The choice -/

theorem isFront_iff {id : Nat} : isFront getNodeNumber id = true ↔ id = 0 ∨ nodeOf getNodeNumber id ≠ 0 := by
  by_cases h : id = 0 <;> simp [isFront, nodeOf, h]

theorem mem_front {id : Nat} : id ∈ front getNodeNumber ids ↔ id ∈ ids ∧ isFront getNodeNumber id = true :=
  List.mem_filter

theorem mem_back {id : Nat} : id ∈ back getNodeNumber ids ↔ id ∈ ids ∧ isFront getNodeNumber id = false := by
  simp [back]

/-- The memory space selected, by the first part of the members: the least used one of the second part if
the first is empty; else the least used one of the first part for a destination on node 0, and for other
destinations the head of the first part or the least used one of the second. -/
theorem getSource_fst (hne : locs.ids ≠ []) : (getSource getNodeNumber s destination locs).1 =
    match front getNodeNumber locs.ids with
    | [] => leastUsed s.memSpaces ((back getNodeNumber locs.ids).reverse.getD 0 0)
        (back getNodeNumber locs.ids).reverse
    | id :: rest => leastUsed s.memSpaces id
        (if nodeOf getNodeNumber destination = 0 then id :: rest
          else (back getNodeNumber locs.ids).reverse) := by
  have hhost : destination = 0 → nodeOf getNodeNumber destination = 0 := fun h => by simp [nodeOf, h]
  unfold getSource
  split
  · next hlen =>
    -- several members
    have hstart : (((front getNodeNumber locs.ids).length : Int) - 1 + 1).toNat =
        (front getNodeNumber locs.ids).length := by omega
    simp only [choose, classify_eq, hstart, List.drop_left', List.take_left', or_iff_right_of_imp hhost]
    cases front getNodeNumber locs.ids with
    | nil => simp
    | cons id rest =>
      cases rest with
      | nil => by_cases hd : nodeOf getNodeNumber destination = 0 <;> simp [hd, leastUsed]
      | cons id' rest => by_cases hd : nodeOf getNodeNumber destination = 0 <;> simp [hd]
  · next hlen =>
    -- a single member
    obtain ⟨id, hid⟩ : ∃ id, locs.ids = [id] := List.length_eq_one_iff.1 (by
      have := List.length_pos_iff.2 hne
      omega)
    rw [hid]
    cases hfront : isFront getNodeNumber id with
    | true => by_cases hd : nodeOf getNodeNumber destination = 0 <;> simp [front, back, hfront, hd, leastUsed]
    | false => simp [front, back, hfront, leastUsed]

/-- The head of the first part is its smallest member. -/
theorem le_of_front_eq {id : Nat} {rest : List Nat} (h : front getNodeNumber locs.ids = id :: rest) :
    ∀ m ∈ locs.ids, isFront getNodeNumber m = true → id ≤ m := by
  intro m hm hfront
  have hsorted : (id :: rest).Pairwise (· < ·) := h ▸ locs.sorted.filter _
  rcases List.mem_cons.1 (h ▸ mem_front.2 ⟨hm, hfront⟩) with rfl | hrest
  · exact le_refl _
  · exact (List.rel_of_pairwise_cons hsorted hrest).le

/-- **The source is the right one exactly if** the host is no worse than the remote nodes (for a
destination on node 0, with members on node 0 and others), or the first of host and remote nodes is no worse
than the accelerators of node 0 (for a destination on another node). -/
theorem getSource_sound_iff (getNodeNumber : Nat → Nat) (s : State) (destination : Nat) (locs : LocationSet)
    (hne : locs.ids ≠ []) :
    Sound getNodeNumber destination locs (getSource getNodeNumber s destination locs).1 ↔
      if nodeOf getNodeNumber destination = 0 then NearOk getNodeNumber s.memSpaces locs
      else FarOk getNodeNumber s.memSpaces locs := by
  rw [getSource_fst hne]
  cases hfront : front getNodeNumber locs.ids with
  | nil =>
    -- there are accelerators of node 0 only
    have hall : ∀ m ∈ locs.ids, isFront getNodeNumber m = false := fun m hm => by
      by_contra h
      have hmem : m ∈ front getNodeNumber locs.ids := mem_front.2 ⟨hm, by simpa using h⟩
      rw [hfront] at hmem
      cases hmem
    have hnode : ∀ m ∈ locs.ids, nodeOf getNodeNumber m = 0 := fun m hm => by
      by_contra h
      exact Bool.false_ne_true ((hall m hm).symm.trans (isFront_iff.2 (.inr h)))
    have hback : (back getNodeNumber locs.ids).reverse ≠ [] := by
      obtain ⟨m, hm⟩ := List.exists_mem_of_ne_nil _ hne
      exact List.ne_nil_of_mem (List.mem_reverse.2 (mem_back.2 ⟨hm, hall m hm⟩))
    have hmem : ∀ id ∈ (back getNodeNumber locs.ids).reverse, id ∈ locs.ids := fun id hid =>
      (mem_back.1 (List.mem_reverse.1 hid)).1
    dsimp only
    obtain ⟨id, rest, hrest⟩ := List.exists_cons_of_ne_nil hback
    rw [hrest] at hmem ⊢
    have hselected : leastUsed s.memSpaces id (id :: rest) ∈ locs.ids := by
      refine hmem _ ?_
      rw [leastUsed_cons, if_neg (lt_irrefl _)]
      exact leastUsed_mem id rest
    refine iff_of_true ⟨hselected, fun _ _ => hnode _ hselected, fun _ ⟨m, hm, hother⟩ => ?_⟩ ?_
    · exact absurd (isFront_iff.2 hother) (by simp [hall m hm])
    · split
      · exact .inr (.inl hnode)
      · exact .inl hall
  | cons f rest =>
    have hmin := le_of_front_eq hfront
    have hmem : ∀ id, id ∈ f :: rest ↔ id ∈ locs.ids ∧ isFront getNodeNumber id = true := fun id => by
      rw [← hfront, mem_front]
    obtain ⟨hf, hff⟩ := (hmem f).1 List.mem_cons_self
    dsimp only
    split
    · next hdest =>
      have hselected : leastUsed s.memSpaces f (f :: rest) ∈ f :: rest := by
        rw [leastUsed_cons, if_neg (lt_irrefl _)]
        exact leastUsed_mem f rest
      obtain ⟨hin, hpart⟩ := (hmem _).1 hselected
      refine ⟨fun h => ?_, fun h => ⟨hin, fun _ hnear => ?_, fun hfar => absurd hdest hfar⟩⟩
      · -- a selected member of the first part on node 0 is the host
        refine or_iff_not_imp_left.2 fun hnot => .inr ?_
        have hnode := h.near hdest (by simpa using hnot)
        have hhost := (isFront_iff.1 hpart).resolve_right (not_not.2 hnode)
        refine ⟨hhost ▸ hin, fun m hm hm' => ?_⟩
        have hle := (leastUsed_le s.memSpaces f (f :: rest)).2 m
          ((hmem m).2 ⟨hm, isFront_iff.2 (.inr hm')⟩)
        rwa [hhost] at hle
      · rcases h with hall | hall | ⟨hhost, hle⟩
        · obtain ⟨m, hm, hnode⟩ := hnear
          exact absurd hnode (hall m hm)
        · exact hall _ hin
        · have hf0 : f = 0 := Nat.le_zero.1 (hmin 0 hhost (isFront_iff.2 (.inl rfl)))
          have hstay : leastUsed s.memSpaces f (f :: rest) = f := leastUsed_of_le fun id hid => by
            obtain ⟨hid, hpart⟩ := (hmem id).1 hid
            rcases isFront_iff.1 hpart with rfl | hnode
            · rw [hf0]
            · rw [hf0]
              exact hle id hid hnode
          rw [hstay, hf0]
          rfl
    · next hdest =>
      have hback : ∀ id, id ∈ (back getNodeNumber locs.ids).reverse ↔
          id ∈ locs.ids ∧ isFront getNodeNumber id = false := fun id => by
        rw [List.mem_reverse, mem_back]
      refine ⟨fun h => .inr ⟨f, hf, hff, hmin, fun a ha hacc => ?_⟩, fun h => ?_⟩
      · by_contra hlt
        have hselected := (leastUsed_of_lt ((hback a).2 ⟨ha, hacc⟩) (not_le.1 hlt)).1
        have hpart := isFront_iff.2 (h.far hdest ⟨f, hf, isFront_iff.1 hff⟩)
        exact Bool.false_ne_true (((hback _).1 hselected).2.symm.trans hpart)
      · rcases h with hall | ⟨m, hm, hmf, hmmin, hle⟩
        · exact absurd hff (by simp [hall f hf])
        · obtain rfl : m = f := le_antisymm (hmmin f hf hff) (hmin m hm hmf)
          have hstay : leastUsed s.memSpaces m (back getNodeNumber locs.ids).reverse = m :=
            leastUsed_of_le fun id hid => hle id ((hback id).1 hid).1 ((hback id).1 hid).2
          rw [hstay]
          exact ⟨hm, fun h0 => absurd h0 hdest, fun _ _ => isFront_iff.1 hmf⟩

/-- A task on another node; the host is as little used as the accelerator. -/
theorem getSource_sound_host : Sound (fun id => id - 1) 3 ⟨[0, 1, 2], by decide⟩
    (getSource (fun id => id - 1) {} 3 ⟨[0, 1, 2], by decide⟩).1 :=
  (getSource_sound_iff (fun id => id - 1) {} 3 ⟨[0, 1, 2], by decide⟩ (by decide)).2
    (.inr ⟨0, by decide, by decide, by decide, by decide⟩)

/-- The first transfer of all, to the host, from an accelerator of node 0 or from node 1: the code takes
the copy of node 1. -/
theorem getSource_not_sound_remote : ¬ Sound (fun id => id - 1) 0 ⟨[1, 2], by decide⟩
    (getSource (fun id => id - 1) {} 0 ⟨[1, 2], by decide⟩).1 := fun h =>
  absurd (h.near (by decide) ⟨1, by decide, by decide⟩) (by decide)

end

end OmpSs.Core.Router
