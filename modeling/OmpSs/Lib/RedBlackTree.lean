import Mathlib.Data.List.Basic

/-!
# Binary trees with a hole

Binary trees with red and black nodes, in search of which one goes left or right by a test of the entry
(`find`, `descend`); outside they are the list of their entries in order (`toList`). A tree from which a
subtree was taken out is the list of the nodes above the hole, each with its other subtree (`Frame`), the
innermost first, and `plug` puts a subtree there.
-/

namespace OmpSs.Lib.RedBlack

inductive BinTree (α : Type*)
  | nil
  | node (red : Bool) (l : BinTree α) (a : α) (r : BinTree α)

/-- A node above the hole, which is its left or its right subtree. -/
inductive Frame (α : Type*)
  | left (red : Bool) (a : α) (r : BinTree α)
  | right (red : Bool) (l : BinTree α) (a : α)

section
variable {α : Type*} {l r t : BinTree α} {a : α} {ctx : List (Frame α)} {red : Bool}

namespace BinTree

def toList : BinTree α → List α
  | nil => []
  | node _ l a r => l.toList ++ a :: r.toList

/-- The number of nodes on the longest path. -/
def depth : BinTree α → Nat
  | nil => 0
  | node _ l _ r => max l.depth r.depth + 1

@[simp] theorem toList_nil : (nil : BinTree α).toList = [] := rfl

@[simp] theorem toList_node : (node red l a r).toList = l.toList ++ a :: r.toList := rfl

theorem depth_le_length (t : BinTree α) : t.depth ≤ t.toList.length := by
  induction t with
  | nil => exact Nat.le_refl 0
  | node red l a r ihl ihr =>
    simp only [depth, toList_node, List.length_append, List.length_cons]
    omega

/-- The entry at which `f` is 0, in a tree ordered by `f`. -/
def find (f : α → Int) : BinTree α → Option α
  | nil => none
  | node _ l a r => if f a = 0 then some a else if 0 < f a then l.find f else r.find f

/-- A search finds the entry it looks for, if the entries are ordered. -/
theorem find_eq {f : α → Int} (h : t.toList.Pairwise fun a b => 0 ≤ f a → 0 < f b) :
    t.find f = t.toList.find? fun a => decide (f a = 0) := by
  induction t with
  | nil => rfl
  | node red l a r ihl ihr =>
    obtain ⟨hl, har, hlar⟩ := List.pairwise_append.1 h
    obtain ⟨ha, hr⟩ := List.pairwise_cons.1 har
    rw [find, toList_node, List.find?_append, List.find?_cons]
    -- what stands to the left of an entry at which `f` is not positive is not looked for
    have hleft : f a ≤ 0 → l.toList.find? (fun a => decide (f a = 0)) = none := by
      intro hle
      rw [List.find?_eq_none]
      intro b hb hb0
      have := hlar b hb a (by simp) (Int.le_of_eq (of_decide_eq_true hb0).symm)
      omega
    by_cases hzero : f a = 0
    · simp [hzero, hleft (Int.le_of_eq hzero)]
    · by_cases hpos : 0 < f a
      · have hnone : r.toList.find? (fun a => decide (f a = 0)) = none := by
          rw [List.find?_eq_none]
          intro b hb hb0
          have := ha b hb (by omega)
          have := of_decide_eq_true hb0
          omega
        simp [hzero, hpos, hnone, ihl hl]
      · simp [hzero, hpos, hleft (Int.not_lt.1 hpos), ihr hr]

end BinTree

open BinTree

/-! ## Trees with a hole -/

namespace Frame

/-- The tree with `t` in the hole below one node. -/
def fill : Frame α → BinTree α → BinTree α
  | left red a r, t => node red t a r
  | right red l a, t => node red l a t

def entry : Frame α → α
  | left _ a _ => a
  | right _ _ a => a

/-- The subtree that is not the hole. -/
def sibling : Frame α → BinTree α
  | left _ _ r => r
  | right _ l _ => l

def isRed : Frame α → Bool
  | left red _ _ => red
  | right red _ _ => red

end Frame

/-- The tree with `t` in the hole. -/
def plug : List (Frame α) → BinTree α → BinTree α
  | [], t => t
  | f :: ctx, t => plug ctx (f.fill t)

/-- The entries that stand before the hole. -/
def before : List (Frame α) → List α
  | [] => []
  | .left _ _ _ :: ctx => before ctx
  | .right _ l a :: ctx => before ctx ++ (l.toList ++ [a])

/-- The entries that stand after the hole. -/
def after : List (Frame α) → List α
  | [] => []
  | .left _ a r :: ctx => a :: r.toList ++ after ctx
  | .right _ _ _ :: ctx => after ctx

theorem toList_plug (ctx : List (Frame α)) (t : BinTree α) :
    (plug ctx t).toList = before ctx ++ t.toList ++ after ctx := by
  induction ctx generalizing t with
  | nil => simp [plug, before, after]
  | cons f ctx ih =>
    rw [plug, ih]
    cases f <;> simp [Frame.fill, before, after, List.append_assoc]

/-- What a subtree lists decides what the tree lists. -/
theorem toList_plug_congr {t t' : BinTree α} (h : t.toList = t'.toList) (ctx : List (Frame α)) :
    (plug ctx t).toList = (plug ctx t').toList := by
  rw [toList_plug, toList_plug, h]

theorem length_le_plug (ctx : List (Frame α)) (t : BinTree α) :
    ctx.length + t.toList.length ≤ (plug ctx t).toList.length := by
  induction ctx generalizing t with
  | nil => simp [plug]
  | cons f ctx ih =>
    have := ih (f.fill t)
    have hfill : t.toList.length + 1 ≤ (f.fill t).toList.length := by
      cases f <;> simp only [Frame.fill, toList_node, List.length_append, List.length_cons] <;> omega
    rw [List.length_cons, plug]
    omega

/-! ## The way to a leaf -/

/-- The hole at which one ends who goes left at the entries that `f` admits. -/
def descend (f : α → Bool) : List (Frame α) → BinTree α → List (Frame α)
  | ctx, .nil => ctx
  | ctx, .node red l a r =>
    if f a then descend f (.left red a r :: ctx) l else descend f (.right red l a :: ctx) r

section
variable {f : α → Bool}

theorem plug_descend (f : α → Bool) (ctx : List (Frame α)) (t : BinTree α) :
    plug (descend f ctx t) .nil = plug ctx t := by
  induction t generalizing ctx with
  | nil => rfl
  | node red l a r ihl ihr =>
    rw [descend]
    split
    · exact ihl _
    · exact ihr _

/-- The entries before the hole are those that `f` does not admit. -/
theorem descend_splits (hbefore : ∀ a ∈ before ctx, f a = false) (hafter : ∀ a ∈ after ctx, f a = true)
    (ht : t.toList.Pairwise fun a b => f a = true → f b = true) :
    (∀ a ∈ before (descend f ctx t), f a = false) ∧ ∀ a ∈ after (descend f ctx t), f a = true := by
  induction t generalizing ctx with
  | nil => exact ⟨hbefore, hafter⟩
  | node red l a r ihl ihr =>
    obtain ⟨hl, har, hlar⟩ := List.pairwise_append.1 ht
    obtain ⟨ha, hr⟩ := List.pairwise_cons.1 har
    rw [descend]
    split
    · next hfa =>
      refine ihl hbefore (fun b hb => ?_) hl
      rcases List.mem_append.1 hb with hb | hb
      · rcases List.mem_cons.1 hb with rfl | hb
        · exact hfa
        · exact ha b hb hfa
      · exact hafter b hb
    · next hfa =>
      have hfa' : f a = false := Bool.eq_false_iff.2 hfa
      refine ihr (fun b hb => ?_) hafter hr
      rcases List.mem_append.1 hb with hb | hb
      · exact hbefore b hb
      · rcases List.mem_append.1 hb with hb | hb
        · by_contra hfb
          exact hfa (hlar b hb a (by simp) (Bool.not_eq_false _ ▸ hfb))
        · rw [List.mem_singleton.1 hb]
          exact hfa'

/-- Which subtree the hole is says what `f` says of the node. -/
def Frame.Chosen (f : α → Bool) : Frame α → Prop
  | .left _ a _ => f a = true
  | .right _ _ a => f a = false

theorem descend_chosen (h : ∀ fr ∈ ctx, Frame.Chosen f fr) : ∀ fr ∈ descend f ctx t, Frame.Chosen f fr := by
  induction t generalizing ctx with
  | nil => exact h
  | node red l a r ihl ihr =>
    rw [descend]
    split
    · next hfa =>
      exact ihl (List.forall_mem_cons.2 ⟨hfa, h⟩)
    · next hfa =>
      exact ihr (List.forall_mem_cons.2 ⟨Bool.eq_false_iff.2 hfa, h⟩)

end

end

end OmpSs.Lib.RedBlack
