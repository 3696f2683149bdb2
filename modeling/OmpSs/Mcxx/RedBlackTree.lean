import Mathlib.Logic.Function.Basic
import OmpSs.Lib.RedBlackTree

/-!
# The red-black tree of the compiler, in memory

`mcxx/lib/red_black_tree.c`, of which the front end makes its pools, sets and caches: `rb_tree_create`,
`rb_tree_insert` and `rb_tree_query`. A tree is its nodes in memory: each field of the nodes
is a function of the address, and new nodes get the next address. `nil` and `root` are the two sentinels;
the tree hangs to the left of `root`. The loops get the number of nodes as the bound of their rounds and
fail if they have not ended by then. `comp_func` is a parameter.

`Focus t ctx s` says that the memory `t` holds a tree, seen from one of its subtrees `s`. The rotations, the
change of a colour and the link to a new leaf are each one lemma about it. What the insertions do with a
tree is the subject of `RedBlackTreeInsert` and `RedBlackTreeMap`.

Left out: `rb_tree_delete` and `rb_tree_walk`, which nothing calls.
-/

namespace OmpSs.Mcxx.RedBlackTree

open Lib.RedBlack Function

/-- `rb_red_blk_tree` and its nodes. -/
structure RbTree (K V : Type*) where
  key : Nat → K
  info : Nat → V
  red : Nat → Bool
  left : Nat → Nat
  right : Nat → Nat
  parent : Nat → Nat
  /-- The address of the next node that is allocated. -/
  next : Nat

/-- `tree->nil` -/
def nil : Nat := 0

/-- `tree->root` -/
def root : Nat := 1

section
variable {K V : Type*}

/-- Source: `rb_tree_create` (`red_black_tree.c:97`). What `malloc` leaves in other nodes is never read. -/
def rbTreeCreate [Inhabited K] [Inhabited V] : RbTree K V where
  key _ := default
  info _ := default
  red _ := false
  left _ := nil
  right _ := nil
  parent _ := nil
  next := 2

/-- `if (y != nil) y->parent=x` -/
def adopt (t : RbTree K V) (y x : Nat) : RbTree K V :=
  if y ≠ nil then { t with parent := update t.parent y x } else t

/-- `if (x == x->parent->left) x->parent->left=y else x->parent->right=y` -/
def replaceChild (t : RbTree K V) (x y : Nat) : RbTree K V :=
  if x = t.left (t.parent x) then { t with left := update t.left (t.parent x) y }
  else { t with right := update t.right (t.parent x) y }

/-- What both rotations do between the changes of the two nodes' own links: the subtree `m` between the
nodes gets the parent `low`, and `top` hangs where `low` does. -/
def hang (t : RbTree K V) (m low top : Nat) : RbTree K V :=
  let t := adopt t m low
  let t := { t with parent := update t.parent top (t.parent low) }
  replaceChild t low top

/-- Source: `LeftRotate` (`red_black_tree.c:139`). -/
def leftRotate (t : RbTree K V) (x : Nat) : RbTree K V :=
  let y := t.right x
  let t := { t with right := update t.right x (t.left y) }
  let t := hang t (t.left y) x y
  let t := { t with left := update t.left y x }
  { t with parent := update t.parent x y }

/-- Source: `RightRotate` (`red_black_tree.c:194`). -/
def rightRotate (t : RbTree K V) (y : Nat) : RbTree K V :=
  let x := t.left y
  let t := { t with left := update t.left y (t.right x) }
  let t := hang t (t.right x) y x
  let t := { t with right := update t.right x y }
  { t with parent := update t.parent y x }

/-- `a->red=red` -/
def setRed (t : RbTree K V) (a : Nat) (red : Bool) : RbTree K V :=
  { t with red := update t.red a red }

/-- The loop of `TreeInsertHelp` (`red_black_tree.c:254`): the leaf below which the node with `key` goes. -/
def insertLoop (compFunc : K → K → Int) (t : RbTree K V) (key : K) : Nat → Nat → Nat → Option Nat
  | 0, _, _ => none
  | fuel + 1, y, x =>
    if x = nil then some y
    else insertLoop compFunc t key fuel x (if 0 < compFunc (t.key x) key then t.left x else t.right x)

/-- The new node before its place is known. -/
def detach (t : RbTree K V) (z : Nat) : RbTree K V :=
  { t with left := update t.left z nil, right := update t.right z nil }

/-- `z->parent=y` -/
def setParent (t : RbTree K V) (z y : Nat) : RbTree K V := { t with parent := update t.parent z y }

/-- `y->left=z` or `y->right=z` -/
def attach (t : RbTree K V) (left : Bool) (y z : Nat) : RbTree K V :=
  if left then { t with left := update t.left y z } else { t with right := update t.right y z }

/-- Source: `TreeInsertHelp` (`red_black_tree.c:245`). -/
def treeInsertHelp (compFunc : K → K → Int) (t : RbTree K V) (z : Nat) : Option (RbTree K V) :=
  let t := detach t z
  (insertLoop compFunc t (t.key z) t.next root (t.left root)).map fun y =>
    attach (setParent t z y) (y = root ∨ 0 < compFunc (t.key y) (t.key z)) y z

/-- One round of the loop of `rb_tree_add` (`red_black_tree.c:308`). -/
def fixStep (t : RbTree K V) (x : Nat) : RbTree K V × Nat :=
  if t.parent x = t.left (t.parent (t.parent x)) then
    let y := t.right (t.parent (t.parent x))
    if t.red y then
      let t := setRed t (t.parent x) false
      let t := setRed t y false
      let t := setRed t (t.parent (t.parent x)) true
      (t, t.parent (t.parent x))
    else
      let tx := if x = t.right (t.parent x) then (leftRotate t (t.parent x), t.parent x) else (t, x)
      let t := tx.1
      let x := tx.2
      let t := setRed t (t.parent x) false
      let t := setRed t (t.parent (t.parent x)) true
      (rightRotate t (t.parent (t.parent x)), x)
  else
    let y := t.left (t.parent (t.parent x))
    if t.red y then
      let t := setRed t (t.parent x) false
      let t := setRed t y false
      let t := setRed t (t.parent (t.parent x)) true
      (t, t.parent (t.parent x))
    else
      let tx := if x = t.left (t.parent x) then (rightRotate t (t.parent x), t.parent x) else (t, x)
      let t := tx.1
      let x := tx.2
      let t := setRed t (t.parent x) false
      let t := setRed t (t.parent (t.parent x)) true
      (leftRotate t (t.parent (t.parent x)), x)

/-- The loop of `rb_tree_add`. -/
def fixLoop : Nat → RbTree K V → Nat → Option (RbTree K V)
  | 0, _, _ => none
  | fuel + 1, t, x =>
    if t.red (t.parent x) then fixLoop fuel (fixStep t x).1 (fixStep t x).2 else some t

/-- A node is allocated and gets its key and its information. -/
def newNode (t : RbTree K V) (key : K) (info : V) : RbTree K V :=
  { t with key := update t.key t.next key, info := update t.info t.next info, next := t.next + 1 }

/-- Source: `rb_tree_add` (`red_black_tree.c:296`). -/
def rbTreeAdd (compFunc : K → K → Int) (t : RbTree K V) (key : K) (info : V) :
    Option (RbTree K V × Nat) := do
  let x := t.next
  let t ← treeInsertHelp compFunc (newNode t key info) x
  let t ← fixLoop t.next (setRed t x true) x
  return (setRed t (t.left root) false, x)

/-- The loop of `rb_tree_query` (`red_black_tree.c:585`). -/
def queryLoop (compFunc : K → K → Int) (t : RbTree K V) (q : K) : Nat → Nat → Option (Option Nat)
  | 0, _ => none
  | fuel + 1, x =>
    if x = nil then some none
    else if compFunc (t.key x) q = 0 then some (some x)
    else queryLoop compFunc t q fuel (if 0 < compFunc (t.key x) q then t.left x else t.right x)

/-- The node with the key `q`, or `some none` for `NULL`. Source: `rb_tree_query`
(`red_black_tree.c:579`). -/
def rbTreeQuery (compFunc : K → K → Int) (t : RbTree K V) (q : K) : Option (Option Nat) :=
  queryLoop compFunc t q t.next (t.left root)

/-! ## The tree in memory -/

/-- A node as a tree holds it. -/
structure Entry (K V : Type*) where
  addr : Nat
  key : K
  info : V

/-- The address of the root of a subtree. -/
def addrOf : BinTree (Entry K V) → Nat
  | .nil => nil
  | .node _ _ a _ => a.addr

/-- The addresses of the nodes. -/
def addrs (s : BinTree (Entry K V)) : List Nat := s.toList.map (·.addr)

/-- The address of the node above the hole. -/
def holeParent : List (Frame (Entry K V)) → Nat
  | [] => root
  | f :: _ => f.entry.addr

/-- The fields of the node of the entry `a`. -/
structure IsNode (t : RbTree K V) (p : Nat) (red : Bool) (l : Nat) (a : Entry K V) (r : Nat) : Prop where
  key : t.key a.addr = a.key
  info : t.info a.addr = a.info
  red : t.red a.addr = red
  left : t.left a.addr = l
  right : t.right a.addr = r
  parent : t.parent a.addr = p

/-- The memory holds the subtree `s` below the node `p`. -/
def Rep (t : RbTree K V) : Nat → BinTree (Entry K V) → Prop
  | _, .nil => True
  | p, .node red l a r =>
    IsNode t p red (addrOf l) a (addrOf r) ∧ Rep t a.addr l ∧ Rep t a.addr r

/-- The addresses of the two subtrees of the node above the hole, at which `s` hangs. -/
def children : Frame (Entry K V) → Nat → Nat × Nat
  | .left _ _ r, s => (s, addrOf r)
  | .right _ l _, s => (addrOf l, s)

/-- The memory holds the tree around a hole at which the subtree `s` hangs. -/
def RepCtx (t : RbTree K V) : Nat → List (Frame (Entry K V)) → Prop
  | s, [] => t.left root = s
  | s, f :: ctx =>
    IsNode t (holeParent ctx) f.isRed (children f s).1 f.entry (children f s).2 ∧
      Rep t f.entry.addr f.sibling ∧ RepCtx t f.entry.addr ctx

/-- The memory holds a tree, whose subtree `s` is in focus. -/
structure Focus (t : RbTree K V) (ctx : List (Frame (Entry K V))) (s : BinTree (Entry K V)) : Prop where
  above : RepCtx t (addrOf s) ctx
  sub : Rep t (holeParent ctx) s
  nodup : (addrs (plug ctx s)).Nodup
  range : ∀ a, a ∈ addrs (plug ctx s) ↔ root < a ∧ a < t.next
  nil_black : t.red nil = false
  root_black : t.red root = false

variable {t t' : RbTree K V} {s l r : BinTree (Entry K V)} {a x y : Entry K V} {red c d : Bool}
  {ctx : List (Frame (Entry K V))} {p q b : Nat}

/-- The two memories hold the same at `a`. -/
structure SameAt (t t' : RbTree K V) (a : Nat) : Prop where
  key : t'.key a = t.key a
  info : t'.info a = t.info a
  red : t'.red a = t.red a
  left : t'.left a = t.left a
  right : t'.right a = t.right a
  parent : t'.parent a = t.parent a

theorem SameAt.trans {t'' : RbTree K V} (h : SameAt t t' b) (h' : SameAt t' t'' b) : SameAt t t'' b :=
  ⟨h'.key.trans h.key, h'.info.trans h.info, h'.red.trans h.red, h'.left.trans h.left, h'.right.trans h.right,
    h'.parent.trans h.parent⟩

theorem IsNode.congr {l r : Nat} (h : IsNode t p c l a r) (ht : SameAt t t' a.addr) : IsNode t' p c l a r :=
  ⟨ht.key.trans h.key, ht.info.trans h.info, ht.red.trans h.red, ht.left.trans h.left,
    ht.right.trans h.right, ht.parent.trans h.parent⟩

@[simp] theorem addrs_nil : addrs (.nil : BinTree (Entry K V)) = [] := rfl

@[simp] theorem addrs_node : addrs (.node red l a r) = addrs l ++ a.addr :: addrs r := by
  simp [addrs]

theorem Rep.congr (h : Rep t p s) (ht : ∀ b ∈ addrs s, SameAt t t' b) : Rep t' p s := by
  induction s generalizing p with
  | nil => trivial
  | node red l a r ihl ihr =>
    obtain ⟨ha, hl, hr⟩ := h
    rw [addrs_node] at ht
    exact ⟨ha.congr (ht _ (by simp)), ihl hl fun b hb => ht b (by simp [hb]),
      ihr hr fun b hb => ht b (by simp [hb])⟩

/-- The root of a subtree gets another parent. -/
theorem Rep.reparent (h : Rep t p s) (hnodup : (addrs s).Nodup)
    (ht : ∀ b ∈ addrs s, SameAt t { t' with parent := t.parent } b)
    (hparent : ∀ b ∈ addrs s, t'.parent b = if b = addrOf s then q else t.parent b) : Rep t' q s := by
  cases s with
  | nil => trivial
  | node red l a r =>
    obtain ⟨ha, hl, hr⟩ := h
    rw [addrs_node] at ht hparent hnodup
    obtain ⟨-, har, hlar⟩ := List.nodup_append.1 hnodup
    have hsame : ∀ b, b ∈ addrs l ∨ b ∈ addrs r → SameAt t t' b := by
      intro b hb
      have hmem : b ∈ addrs l ++ a.addr :: addrs r := by
        rcases hb with hb | hb <;> simp [hb]
      have hne : b ≠ a.addr := by
        rintro rfl
        rcases hb with hb | hb
        · exact hlar _ hb _ (by simp) rfl
        · exact (List.nodup_cons.1 har).1 hb
      obtain ⟨h1, h2, h3, h4, h5, -⟩ := ht b hmem
      exact ⟨h1, h2, h3, h4, h5, (hparent b hmem).trans (if_neg hne)⟩
    have hat := ht a.addr (by simp)
    refine ⟨⟨hat.key.trans ha.key, hat.info.trans ha.info, hat.red.trans ha.red, hat.left.trans ha.left,
      hat.right.trans ha.right, ?_⟩, hl.congr fun b hb => hsame b (.inl hb),
      hr.congr fun b hb => hsame b (.inr hb)⟩
    exact (hparent _ (by simp)).trans (if_pos rfl)

/-- The addresses of the nodes around the hole. -/
def around (ctx : List (Frame (Entry K V))) : List Nat := addrs (plug ctx .nil)

theorem addrs_plug :
    addrs (plug ctx s) = (before ctx).map (·.addr) ++ addrs s ++ (after ctx).map (·.addr) := by
  rw [addrs, toList_plug, List.map_append, List.map_append]
  rfl

/-- Every node of a tree is once in it, in the subtree or around it. -/
theorem nodup_plug : (addrs (plug ctx s)).Nodup ↔
    (addrs s).Nodup ∧ (around ctx).Nodup ∧ ∀ b ∈ addrs s, b ∉ around ctx := by
  rw [around, addrs_plug, addrs_plug]
  simp only [List.nodup_append, List.mem_append, addrs_nil, List.append_nil]
  grind

theorem mem_plug : b ∈ addrs (plug ctx s) ↔ b ∈ addrs s ∨ b ∈ around ctx := by
  rw [around, addrs_plug, addrs_plug]
  simp only [List.mem_append, addrs_nil, List.append_nil]
  tauto

theorem mem_around_cons {f : Frame (Entry K V)} :
    b ∈ around (f :: ctx) ↔ b = f.entry.addr ∨ b ∈ addrs f.sibling ∨ b ∈ around ctx := by
  rw [around, plug, mem_plug]
  cases f with
  | left c a r => simp [Frame.fill, Frame.entry, Frame.sibling, or_assoc]
  | right c l a =>
    simp only [Frame.fill, Frame.entry, Frame.sibling, addrs_node, addrs_nil, List.mem_append, List.mem_singleton]
    tauto

/-- The node above the hole is no other node. -/
theorem nodup_around_cons {f : Frame (Entry K V)} (h : (around (f :: ctx)).Nodup) :
    f.entry.addr ∉ addrs f.sibling ∧ f.entry.addr ∉ around ctx := by
  obtain ⟨hs, -, hctx⟩ := nodup_plug.1 (show (addrs (plug ctx (f.fill .nil))).Nodup from h)
  cases f with
  | left c a r =>
    simp only [Frame.fill, addrs_node, addrs_nil, List.nil_append, List.nodup_cons] at hs hctx
    exact ⟨hs.1, hctx _ (by simp [Frame.entry])⟩
  | right c l a =>
    simp only [Frame.fill, addrs_node, addrs_nil, List.nodup_append] at hs hctx
    exact ⟨fun ha => hs.2.2 _ ha _ (by simp [Frame.entry]) rfl, hctx _ (by simp [Frame.entry])⟩

theorem RepCtx.congr {s : Nat} (h : RepCtx t s ctx) (ht : ∀ b, b = root ∨ b ∈ around ctx → SameAt t t' b) :
    RepCtx t' s ctx := by
  induction ctx generalizing s with
  | nil => exact (ht _ (.inl rfl)).left.trans h
  | cons f ctx ih =>
    obtain ⟨ha, hs, hctx⟩ := h
    have ht' : ∀ b, b = root ∨ b = f.entry.addr ∨ b ∈ addrs f.sibling ∨ b ∈ around ctx → SameAt t t' b :=
      fun b hb => ht b (hb.imp_right mem_around_cons.2)
    exact ⟨ha.congr (ht' _ (by simp)), hs.congr fun b hb => ht' b (by simp [hb]),
      ih hctx fun b hb => ht' b (by tauto)⟩

/-! ## Moving the focus -/

theorem Focus.zoom_iff {f : Frame (Entry K V)} : Focus t (f :: ctx) s ↔ Focus t ctx (f.fill s) := by
  constructor
  · rintro ⟨⟨ha, hs, hctx⟩, hsub, hnodup, hrange, hnil, hroot⟩
    cases f with
    | left c a r => exact ⟨hctx, ⟨ha, hsub, hs⟩, hnodup, hrange, hnil, hroot⟩
    | right c l a => exact ⟨hctx, ⟨ha, hs, hsub⟩, hnodup, hrange, hnil, hroot⟩
  · rintro ⟨habove, hsub, hnodup, hrange, hnil, hroot⟩
    cases f with
    | left c a r => exact ⟨⟨hsub.1, hsub.2.2, habove⟩, hsub.2.1, hnodup, hrange, hnil, hroot⟩
    | right c l a => exact ⟨⟨hsub.1, hsub.2.1, habove⟩, hsub.2.2, hnodup, hrange, hnil, hroot⟩

/-- Every tree in memory can be seen from its root. -/
theorem Focus.whole (h : Focus t ctx s) : Focus t [] (plug ctx s) := by
  induction ctx generalizing s with
  | nil => exact h
  | cons f ctx ih => exact ih (Focus.zoom_iff.1 h)

theorem Focus.of_whole (h : Focus t [] (plug ctx s)) : Focus t ctx s := by
  induction ctx generalizing s with
  | nil => exact h
  | cons f ctx ih => exact Focus.zoom_iff.2 (ih h)

theorem Focus.root_lt (h : Focus t ctx s) (hb : b ∈ addrs s ∨ b ∈ around ctx) : root < b :=
  ((h.range b).1 (mem_plug.2 hb)).1

/-- The address of a subtree is `nil` or that of one of its nodes. -/
theorem addrOf_mem (hs : addrOf s ≠ nil) : addrOf s ∈ addrs s := by
  cases s with
  | nil => exact absurd rfl hs
  | node c l a r => simp [addrOf]

theorem holeParent_mem (ctx : List (Frame (Entry K V))) :
    holeParent ctx = root ∨ holeParent ctx ∈ around ctx := by
  cases ctx with
  | nil => exact .inl rfl
  | cons f ctx => exact .inr (mem_around_cons.2 (.inl rfl))

/-! ## The link to a subtree -/

/-- The memory with the address `s` in the hole. -/
def setChild (t : RbTree K V) : List (Frame (Entry K V)) → Nat → RbTree K V
  | [], s => { t with left := update t.left root s }
  | .left _ a _ :: _, s => { t with left := update t.left a.addr s }
  | .right _ _ a :: _, s => { t with right := update t.right a.addr s }

theorem setChild_same (ctx : List (Frame (Entry K V))) (s : Nat) (hb : b ≠ holeParent ctx) :
    SameAt t (setChild t ctx s) b := by
  cases ctx with
  | nil => exact ⟨rfl, rfl, rfl, update_of_ne hb _ _, rfl, rfl⟩
  | cons f ctx =>
    cases f with
    | left c a r => exact ⟨rfl, rfl, rfl, update_of_ne hb _ _, rfl, rfl⟩
    | right c l a => exact ⟨rfl, rfl, rfl, rfl, update_of_ne hb _ _, rfl⟩

theorem setChild_rest (t : RbTree K V) (ctx : List (Frame (Entry K V))) (s : Nat) :
    (setChild t ctx s).parent = t.parent ∧ (setChild t ctx s).red = t.red ∧
      (setChild t ctx s).next = t.next := by
  cases ctx with
  | nil => exact ⟨rfl, rfl, rfl⟩
  | cons f ctx => cases f <;> exact ⟨rfl, rfl, rfl⟩

/-- Another subtree hangs at the hole. -/
theorem RepCtx.setChild {s s' : Nat} (h : RepCtx t s ctx) (hnodup : (around ctx).Nodup)
    (hroot : ∀ b ∈ around ctx, root < b) : RepCtx (setChild t ctx s') s' ctx := by
  cases ctx with
  | nil => exact update_self root s' t.left
  | cons f ctx =>
    obtain ⟨ha, hs, hctx⟩ := h
    obtain ⟨hsibling, haround⟩ := nodup_around_cons hnodup
    have hsame : ∀ b, b ≠ f.entry.addr → SameAt t (RedBlackTree.setChild t (f :: ctx) s') b :=
      fun b hb => setChild_same _ _ hb
    refine ⟨?_, hs.congr fun b hb => hsame b fun hba => hsibling (hba ▸ hb),
      hctx.congr fun b hb => hsame b fun hba => ?_⟩
    · cases f with
      | left c a r => exact ⟨ha.key, ha.info, ha.red, update_self _ _ _, ha.right, ha.parent⟩
      | right c l a => exact ⟨ha.key, ha.info, ha.red, ha.left, update_self _ _ _, ha.parent⟩
    · rcases hb with hb | hb
      · exact Nat.lt_irrefl root ((hba.symm.trans hb) ▸ hroot _ (mem_around_cons.2 (.inl rfl)))
      · exact haround (hba ▸ hb)

/-- The pointer to `x` that its parent has becomes `y`. -/
theorem replaceChild_eq {x y : Nat} (h : RepCtx t x ctx) (hparent : t.parent x = holeParent ctx)
    (hx : x ∉ around ctx) (hnil : x ≠ nil) : replaceChild t x y = setChild t ctx y := by
  rw [replaceChild, hparent]
  cases ctx with
  | nil => exact if_pos (Eq.symm h)
  | cons f ctx =>
    cases f with
    | left c a r =>
      have hleft : t.left a.addr = x := h.1.left
      exact if_pos hleft.symm
    | right c l a =>
      have hleft : t.left a.addr = addrOf l := h.1.left
      refine if_neg fun hxl => hx (mem_around_cons.2 (.inr (.inl ?_)))
      have hxl' : x = addrOf l := hxl.trans hleft
      rw [hxl'] at hnil ⊢
      exact addrOf_mem hnil

/-! ## Colours -/

/-- A node is at no other address of the tree. -/
theorem Focus.ne_node (h : Focus t ctx (.node c l a r))
    (hb : b ∈ addrs l ∨ b ∈ addrs r ∨ b = nil ∨ b = root ∨ b ∈ around ctx) : b ≠ a.addr := by
  obtain ⟨hs, -, haround⟩ := nodup_plug.1 h.nodup
  have hlt : root < a.addr := h.root_lt (.inl (by simp))
  rw [addrs_node] at hs haround
  obtain ⟨-, har, hlar⟩ := List.nodup_append.1 hs
  rintro rfl
  rcases hb with hb | hb | hb | hb | hb
  · exact hlar _ hb _ (by simp) rfl
  · exact (List.nodup_cons.1 har).1 hb
  · exact Nat.ne_of_gt (Nat.lt_trans (by decide) hlt) hb
  · exact Nat.ne_of_gt hlt hb
  · exact haround _ (by simp) hb

/-- The colour of a node changes. -/
theorem Focus.setRed (h : Focus t ctx (.node c l a r)) (d : Bool) :
    Focus (setRed t a.addr d) ctx (.node d l a r) := by
  have hsame : ∀ b, b ∈ addrs l ∨ b ∈ addrs r ∨ b = nil ∨ b = root ∨ b ∈ around ctx →
      SameAt t (RedBlackTree.setRed t a.addr d) b :=
    fun b hb => ⟨rfl, rfl, update_of_ne (h.ne_node hb) _ _, rfl, rfl, rfl⟩
  have haddrs : addrs (plug ctx (.node d l a r)) = addrs (plug ctx (.node c l a r)) := by
    rw [addrs, addrs, toList_plug, toList_plug]
    rfl
  obtain ⟨habove, ⟨ha, hl, hr⟩, hnodup, hrange, hnil, hroot⟩ := h
  refine ⟨habove.congr fun b hb => hsame b (by tauto),
    ⟨⟨ha.key, ha.info, update_self _ _ _, ha.left, ha.right, ha.parent⟩, hl.congr fun b hb => hsame b (.inl hb),
      hr.congr fun b hb => hsame b (.inr (.inl hb))⟩, haddrs ▸ hnodup, haddrs ▸ hrange, ?_, ?_⟩
  · exact (hsame nil (by simp)).red.trans hnil
  · exact (hsame root (by simp)).red.trans hroot

/-! ## Rotations -/

theorem adopt_parent (t : RbTree K V) (y x : Nat) (hb : b ≠ nil) :
    (adopt t y x).parent b = if b = y then x else t.parent b := by
  rw [adopt]
  split
  · exact update_apply _ _ _ _
  · next hy =>
    rw [if_neg]
    rintro rfl
    exact hy hb

theorem adopt_same (t : RbTree K V) (y x : Nat) :
    (adopt t y x).key = t.key ∧ (adopt t y x).info = t.info ∧ (adopt t y x).red = t.red ∧
      (adopt t y x).next = t.next ∧ (adopt t y x).left = t.left ∧ (adopt t y x).right = t.right := by
  rw [adopt]; split <;> exact ⟨rfl, rfl, rfl, rfl, rfl, rfl⟩

theorem adopt_sameAt {y x : Nat} (hb : b ≠ y) : SameAt t (adopt t y x) b := by
  rw [adopt]
  split
  · exact ⟨rfl, rfl, rfl, rfl, rfl, update_of_ne hb _ _⟩
  · exact ⟨rfl, rfl, rfl, rfl, rfl, rfl⟩

/-- The distinct addresses of two nodes, one below the other, and of what hangs at them. -/
structure Apart (ctx : List (Frame (Entry K V))) (l m r : BinTree (Entry K V)) (x y : Nat) : Prop where
  ne : x ≠ y
  nodup : (addrs l).Nodup ∧ (addrs m).Nodup ∧ (addrs r).Nodup
  around : (around ctx).Nodup
  hl : ∀ b ∈ addrs l, b ≠ x ∧ b ≠ y ∧ b ∉ addrs m ∧ b ∉ RedBlackTree.around ctx
  hm : ∀ b ∈ addrs m, b ≠ x ∧ b ≠ y ∧ b ∉ RedBlackTree.around ctx
  hr : ∀ b ∈ addrs r, b ≠ x ∧ b ≠ y ∧ b ∉ addrs m ∧ b ∉ RedBlackTree.around ctx
  hx : root < x ∧ x ∉ RedBlackTree.around ctx
  hy : root < y ∧ y ∉ RedBlackTree.around ctx
  lt : ∀ b, b ∈ addrs l ∨ b ∈ addrs m ∨ b ∈ addrs r ∨ b ∈ RedBlackTree.around ctx → root < b

/-- What a rotation that puts `top` above `low` leaves of the memory `t`: `top` hangs where `low` did, `m`
has moved below `low`, and nothing else has changed except at the two nodes. -/
structure Turned (t t' : RbTree K V) (ctx : List (Frame (Entry K V))) (m : BinTree (Entry K V))
    (low top : Nat) : Prop where
  above : RepCtx t' top ctx
  key : t'.key = t.key
  info : t'.info = t.info
  red : t'.red = t.red
  next : t'.next = t.next
  left : ∀ b, b ≠ low → b ≠ top → b ≠ holeParent ctx → t'.left b = t.left b
  right : ∀ b, b ≠ low → b ≠ top → b ≠ holeParent ctx → t'.right b = t.right b
  parent_top : t'.parent top = holeParent ctx
  parent_low : t'.parent low = top
  parent : ∀ b, b ≠ low → b ≠ top → b ≠ nil → t'.parent b = if b = addrOf m then low else t.parent b

theorem Apart.symm {m : BinTree (Entry K V)} {x y : Nat} (h : Apart ctx l m r x y) : Apart ctx r m l y x where
  ne := h.ne.symm
  nodup := ⟨h.nodup.2.2, h.nodup.2.1, h.nodup.1⟩
  around := h.around
  hl b hb := ⟨(h.hr b hb).2.1, (h.hr b hb).1, (h.hr b hb).2.2⟩
  hm b hb := ⟨(h.hm b hb).2.1, (h.hm b hb).1, (h.hm b hb).2.2⟩
  hr b hb := ⟨(h.hl b hb).2.1, (h.hl b hb).1, (h.hl b hb).2.2⟩
  hx := h.hy
  hy := h.hx
  lt b hb := h.lt b (by tauto)

section
variable {m : BinTree (Entry K V)} {low top : Nat} {t₃ : RbTree K V}

theorem Apart.addrOf_ne (h : Apart ctx l m r low top)
    (hb : b = low ∨ b = top ∨ b = root ∨ b ∈ RedBlackTree.around ctx) :
    b ≠ addrOf m := by
  have hle : root ≤ b := by
    rcases hb with rfl | rfl | rfl | hb
    · exact Nat.le_of_lt h.hx.1
    · exact Nat.le_of_lt h.hy.1
    · exact Nat.le_refl _
    · exact Nat.le_of_lt (h.lt b (.inr (.inr (.inr hb))))
  rintro rfl
  have hmem : addrOf m ∈ addrs m := addrOf_mem fun h0 => absurd (h0 ▸ hle) (by decide)
  obtain ⟨h1, h2, h3⟩ := h.hm _ hmem
  have hlt := h.lt _ (.inr (.inl hmem))
  rcases hb with hb | hb | hb | hb
  · exact h1 hb
  · exact h2 hb
  · exact Nat.lt_irrefl root (hb ▸ hlt)
  · exact h3 hb

theorem Apart.holeParent_ne (h : Apart ctx l m r low top) : holeParent ctx ≠ low ∧ holeParent ctx ≠ top := by
  rcases holeParent_mem ctx with hp | hp
  · rw [hp]
    exact ⟨Nat.ne_of_lt h.hx.1, Nat.ne_of_lt h.hy.1⟩
  · exact ⟨fun he => h.hx.2 (he ▸ hp), fun he => h.hy.2 (he ▸ hp)⟩

theorem Apart.ne_of_above (h : Apart ctx l m r low top) (hb : b = root ∨ b ∈ RedBlackTree.around ctx) :
    b ≠ low ∧ b ≠ top := by
  constructor
  · rintro rfl
    exact hb.elim (fun hb => Nat.ne_of_gt h.hx.1 hb) h.hx.2
  · rintro rfl
    exact hb.elim (fun hb => Nat.ne_of_gt h.hy.1 hb) h.hy.2

/-- The memory after `hang`. -/
theorem Apart.hang {t₁ : RbTree K V} (h : Apart ctx l m r low top) (habove : RepCtx t low ctx)
    (hsame : ∀ b, b ≠ low → SameAt t t₁ b) (hparent : t₁.parent = t.parent)
    (hp : t.parent low = holeParent ctx) :
    RepCtx (hang t₁ (addrOf m) low top) top ctx ∧
      (∀ b, b ≠ nil → (hang t₁ (addrOf m) low top).parent b =
        if b = top then holeParent ctx else if b = addrOf m then low else t.parent b) ∧
      ∀ b, b ≠ holeParent ctx → (hang t₁ (addrOf m) low top).left b = t₁.left b ∧
        (hang t₁ (addrOf m) low top).right b = t₁.right b := by
  have hlow : low ≠ nil := Nat.ne_of_gt (Nat.lt_trans (by decide) h.hx.1)
  have hp₁ : (adopt t₁ (addrOf m) low).parent low = holeParent ctx := by
    rw [adopt_parent _ _ _ hlow, if_neg (h.addrOf_ne (.inl rfl)), hparent, hp]
  -- the memory before the link from above changes
  obtain ⟨t₂, ht₂⟩ : ∃ t₂, t₂ = { adopt t₁ (addrOf m) low with
    parent := update (adopt t₁ (addrOf m) low).parent top (holeParent ctx) } := ⟨_, rfl⟩
  have hparent₂ : ∀ b, b ≠ nil → t₂.parent b =
      if b = top then holeParent ctx else if b = addrOf m then low else t.parent b := by
    intro b hb
    rw [ht₂]
    simp only [update_apply, adopt_parent _ _ _ hb, hparent]
  have hsame₂ : ∀ b, b = root ∨ b ∈ RedBlackTree.around ctx → SameAt t t₂ b := by
    intro b hb
    obtain ⟨hblow, hbtop⟩ := h.ne_of_above hb
    have hadopt : SameAt t₁ (adopt t₁ (addrOf m) low) b := adopt_sameAt (h.addrOf_ne (.inr (.inr hb)))
    rw [ht₂]
    exact ((hsame b hblow).trans hadopt).trans ⟨rfl, rfl, rfl, rfl, rfl, update_of_ne hbtop _ _⟩
  have hlow₂ : t₂.parent low = holeParent ctx := by
    rw [hparent₂ low hlow, if_neg h.ne, if_neg (h.addrOf_ne (.inl rfl)), hp]
  have hhang : RedBlackTree.hang t₁ (addrOf m) low top = setChild t₂ ctx top := by
    rw [RedBlackTree.hang, hp₁, ← ht₂]
    exact replaceChild_eq (habove.congr hsame₂) hlow₂ h.hx.2 hlow
  rw [hhang]
  refine ⟨?_, ?_, fun b hb => ?_⟩
  · exact (habove.congr hsame₂).setChild h.around fun b hb => h.lt b (.inr (.inr (.inr hb)))
  · rw [(setChild_rest _ _ _).1]
    exact hparent₂
  · have hb' := setChild_same (t := t₂) ctx top hb
    rw [hb'.left, hb'.right, ht₂]
    obtain ⟨-, -, -, -, hleft, hright⟩ := adopt_same t₁ (addrOf m) low
    exact ⟨congrFun hleft b, congrFun hright b⟩

/-- Neither the order nor the colours change in a rotation. -/
theorem hang_same (t : RbTree K V) (m low top : Nat) :
    (RedBlackTree.hang t m low top).key = t.key ∧ (RedBlackTree.hang t m low top).info = t.info ∧
      (RedBlackTree.hang t m low top).red = t.red ∧ (RedBlackTree.hang t m low top).next = t.next := by
  rw [RedBlackTree.hang, replaceChild]
  obtain ⟨hkey, hinfo, hred, hnext, -⟩ := adopt_same t m low
  split <;> exact ⟨hkey, hinfo, hred, hnext⟩

/-- The memory after a rotation, which has last set a link of `top` and the parent of `low`. -/
theorem Apart.turned {t₁ : RbTree K V} (h : Apart ctx l m r low top) (habove : RepCtx t low ctx)
    (hsame : ∀ b, b ≠ low → SameAt t t₁ b) (hparent : t₁.parent = t.parent)
    (hp : t.parent low = holeParent ctx) (hkey : t'.key = t.key) (hinfo : t'.info = t.info)
    (hred : t'.red = t.red) (hnext : t'.next = t.next)
    (hleft : ∀ b, b ≠ top → t'.left b = (RedBlackTree.hang t₁ (addrOf m) low top).left b)
    (hright : ∀ b, b ≠ top → t'.right b = (RedBlackTree.hang t₁ (addrOf m) low top).right b)
    (hparent' : t'.parent = update (RedBlackTree.hang t₁ (addrOf m) low top).parent low top) :
    Turned t t' ctx m low top := by
  obtain ⟨habove₄, hparent₄, hlinks₄⟩ := h.hang habove hsame hparent hp
  have htop : top ≠ nil := Nat.ne_of_gt (Nat.lt_trans (by decide) h.hy.1)
  have hlow : low ≠ nil := Nat.ne_of_gt (Nat.lt_trans (by decide) h.hx.1)
  have hother : ∀ b, b ≠ low → b ≠ nil → t'.parent b =
      if b = top then holeParent ctx else if b = addrOf m then low else t.parent b := by
    intro b hb hnil
    rw [hparent', update_of_ne hb, hparent₄ b hnil]
  refine ⟨?_, hkey, hinfo, hred, hnext, ?_, ?_, ?_, ?_, ?_⟩
  · refine habove₄.congr fun b hb => ?_
    obtain ⟨hblow, hbtop⟩ := h.ne_of_above hb
    obtain ⟨hkey₄, hinfo₄, hred₄, -⟩ := hang_same t₁ (addrOf m) low top
    refine ⟨?_, ?_, ?_, hleft b hbtop, hright b hbtop, ?_⟩
    · rw [hkey, hkey₄, (hsame b hblow).key]
    · rw [hinfo, hinfo₄, (hsame b hblow).info]
    · rw [hred, hred₄, (hsame b hblow).red]
    · rw [hparent', update_of_ne hblow]
  · intro b hb hbtop hbp
    exact (hleft b hbtop).trans ((hlinks₄ b hbp).1.trans (hsame b hb).left)
  · intro b hb hbtop hbp
    exact (hright b hbtop).trans ((hlinks₄ b hbp).2.trans (hsame b hb).right)
  · rw [hother top h.ne.symm htop, if_pos rfl]
  · rw [hparent', update_self]
  · intro b hb hbtop hbnil
    rw [hother b hb hbnil, if_neg hbtop]

/-- What a rotation does not touch. -/
theorem Turned.sameAt (h : Turned t t' ctx m low top) (hlow : b ≠ low) (htop : b ≠ top)
    (hp : b ≠ holeParent ctx) (hnil : b ≠ nil) (hm : b ≠ addrOf m) : SameAt t t' b := by
  refine ⟨by rw [h.key], by rw [h.info], by rw [h.red], h.left b hlow htop hp, h.right b hlow htop hp, ?_⟩
  rw [h.parent b hlow htop hnil, if_neg hm]

/-- A subtree that is not in the middle stays. -/
theorem Turned.outer (h : Turned t t' ctx m low top) (hs : Rep t p s)
    (hout : ∀ b ∈ addrs s, b ≠ low ∧ b ≠ top ∧ b ∉ addrs m ∧ b ∉ RedBlackTree.around ctx)
    (hlt : ∀ b ∈ addrs s, root < b) : Rep t' p s := by
  refine hs.congr fun b hb => ?_
  obtain ⟨h1, h2, h3, h4⟩ := hout b hb
  have hroot := hlt b hb
  have hnil : b ≠ nil := Nat.ne_of_gt (Nat.lt_trans (by decide) hroot)
  refine h.sameAt h1 h2 (fun hp => ?_) hnil fun hm => ?_
  · rcases holeParent_mem ctx with hctx | hctx
    · exact Nat.ne_of_gt hroot (hp.trans hctx)
    · exact h4 (hp ▸ hctx)
  · rw [hm] at hnil h3
    exact h3 (addrOf_mem hnil)

/-- The subtree in the middle hangs below the node that went down. -/
theorem Turned.middle (h : Turned t t' ctx m low top) (A : Apart ctx l m r low top) (hm : Rep t p m) :
    Rep t' low m := by
  have hnil : ∀ b ∈ addrs m, b ≠ nil := fun b hb =>
    Nat.ne_of_gt (Nat.lt_trans (by decide) (A.lt b (.inr (.inl hb))))
  refine hm.reparent A.nodup.2.1 (fun b hb => ?_) fun b hb => ?_
  · obtain ⟨h1, h2, h3⟩ := A.hm b hb
    have hp : b ≠ holeParent ctx := by
      rintro rfl
      rcases holeParent_mem ctx with hctx | hctx
      · exact Nat.ne_of_gt (A.lt _ (.inr (.inl hb))) hctx
      · exact h3 hctx
    exact ⟨by rw [h.key], by rw [h.info], by rw [h.red], h.left b h1 h2 hp, h.right b h1 h2 hp, rfl⟩
  · exact h.parent b (A.hm b hb).1 (A.hm b hb).2.1 (hnil b hb)

end

theorem addrs_plug_congr {s s' : BinTree (Entry K V)} (h : s.toList = s'.toList) :
    addrs (plug ctx s) = addrs (plug ctx s') := by
  rw [addrs, addrs, toList_plug_congr h]

/-- The tree after a rotation. -/
theorem Turned.focus {m u : BinTree (Entry K V)} {low : Nat} (T : Turned t t' ctx m low (addrOf u)) (h : Focus t ctx s)
    (hlist : u.toList = s.toList) (hs : Rep t' (holeParent ctx) u) : Focus t' ctx u := by
  refine ⟨T.above, hs, ?_, ?_, ?_, ?_⟩
  · rw [addrs_plug_congr hlist]
    exact h.nodup
  · rw [addrs_plug_congr hlist, T.next]
    exact h.range
  · rw [T.red, h.nil_black]
  · rw [T.red, h.root_black]

/-- The two nodes of a rotation and what hangs at them. -/
theorem Focus.apart {m : BinTree (Entry K V)} (h : Focus t ctx s)
    (hs : s.toList = l.toList ++ x :: (m.toList ++ y :: r.toList)) : Apart ctx l m r x.addr y.addr := by
  have haddrs : addrs s = addrs l ++ x.addr :: (addrs m ++ y.addr :: addrs r) := by
    rw [addrs, hs]
    simp [addrs]
  obtain ⟨hnodup, haround, hdisj⟩ := nodup_plug.1 h.nodup
  have hlt : ∀ b, b ∈ addrs s ∨ b ∈ around ctx → root < b := fun b hb => h.root_lt hb
  simp only [haddrs, List.nodup_append, List.nodup_cons, List.mem_append, List.mem_cons] at hnodup hdisj hlt
  constructor <;> grind

/-- `LeftRotate` puts the right child of `x` above `x`. -/
theorem Focus.leftRotate {m : BinTree (Entry K V)} (h : Focus t ctx (.node c l x (.node d m y r))) :
    Focus (leftRotate t x.addr) ctx (.node d (.node c l x m) y r) := by
  have A : Apart ctx l m r x.addr y.addr := h.apart rfl
  have hlist : (BinTree.node d (.node c l x m) y r).toList = (BinTree.node c l x (.node d m y r)).toList := by simp
  obtain ⟨hx, hl, hy, hm, hr⟩ := h.sub
  obtain ⟨hpx, hpy⟩ := A.holeParent_ne
  have hxr : t.right x.addr = y.addr := hx.right
  obtain ⟨t₁, ht₁⟩ : ∃ t₁, t₁ = { t with right := update t.right x.addr (addrOf m) } := ⟨_, rfl⟩
  have hleft₁ : t₁.left = t.left := by rw [ht₁]
  have hright₁ : t₁.right = update t.right x.addr (addrOf m) := by rw [ht₁]
  have hsame : ∀ b, b ≠ x.addr → SameAt t t₁ b := by
    rintro b hb
    rw [ht₁]
    exact ⟨rfl, rfl, rfl, rfl, update_of_ne hb _ _, rfl⟩
  have hlinks := (A.hang h.above hsame (by rw [ht₁]) hx.parent).2.2
  obtain ⟨hkey, hinfo, hred, hnext⟩ := hang_same t₁ (addrOf m) x.addr y.addr
  have hrot : RedBlackTree.leftRotate t x.addr = { hang t₁ (addrOf m) x.addr y.addr with
      left := update (hang t₁ (addrOf m) x.addr y.addr).left y.addr x.addr
      parent := update (hang t₁ (addrOf m) x.addr y.addr).parent x.addr y.addr } := by
    simp only [RedBlackTree.leftRotate, hxr, hy.left, ht₁]
  have T : Turned t (RedBlackTree.leftRotate t x.addr) ctx m x.addr y.addr := by
    rw [hrot]
    refine A.turned h.above hsame (by rw [ht₁]) hx.parent (hkey.trans (by rw [ht₁])) (hinfo.trans (by rw [ht₁]))
      (hred.trans (by rw [ht₁])) (hnext.trans (by rw [ht₁])) (fun b hb => update_of_ne hb _ _) (fun b hb => rfl)
      rfl
  have hx' : IsNode (RedBlackTree.leftRotate t x.addr) y.addr c (addrOf l) x (addrOf m) := by
    refine ⟨?_, ?_, ?_, ?_, ?_, T.parent_low⟩
    · rw [T.key, hx.key]
    · rw [T.info, hx.info]
    · rw [T.red, hx.red]
    · rw [hrot]
      simp only [update_of_ne A.ne, (hlinks _ hpx.symm).1, hleft₁, hx.left]
    · rw [hrot]
      simp only [(hlinks _ hpx.symm).2, hright₁, update_self]
  have hy' : IsNode (RedBlackTree.leftRotate t x.addr) (holeParent ctx) d x.addr y (addrOf r) := by
    refine ⟨?_, ?_, ?_, ?_, ?_, T.parent_top⟩
    · rw [T.key, hy.key]
    · rw [T.info, hy.info]
    · rw [T.red, hy.red]
    · rw [hrot]
      simp only [update_self]
    · rw [hrot]
      simp only [(hlinks _ hpy.symm).2, hright₁, update_of_ne A.ne.symm, hy.right]
  exact Turned.focus (u := .node d (.node c l x m) y r) T h hlist ⟨hy', ⟨hx',
    T.outer hl A.hl fun b hb => A.lt b (.inl hb), T.middle A hm⟩,
    T.outer hr A.hr fun b hb => A.lt b (.inr (.inr (.inl hb)))⟩

/-- `RightRotate` puts the left child of `y` above `y`. -/
theorem Focus.rightRotate {m : BinTree (Entry K V)} (h : Focus t ctx (.node d (.node c l x m) y r)) :
    Focus (rightRotate t y.addr) ctx (.node c l x (.node d m y r)) := by
  have hlist : (BinTree.node c l x (.node d m y r)).toList = (BinTree.node d (.node c l x m) y r).toList := by simp
  have A : Apart ctx r m l y.addr x.addr := (h.apart hlist.symm).symm
  obtain ⟨hy, ⟨hx, hl, hm⟩, hr⟩ := h.sub
  obtain ⟨hpy, hpx⟩ := A.holeParent_ne
  have hyl : t.left y.addr = x.addr := hy.left
  obtain ⟨t₁, ht₁⟩ : ∃ t₁, t₁ = { t with left := update t.left y.addr (addrOf m) } := ⟨_, rfl⟩
  have hleft₁ : t₁.left = update t.left y.addr (addrOf m) := by rw [ht₁]
  have hright₁ : t₁.right = t.right := by rw [ht₁]
  have hsame : ∀ b, b ≠ y.addr → SameAt t t₁ b := by
    rintro b hb
    rw [ht₁]
    exact ⟨rfl, rfl, rfl, update_of_ne hb _ _, rfl, rfl⟩
  have hlinks := (A.hang h.above hsame (by rw [ht₁]) hy.parent).2.2
  obtain ⟨hkey, hinfo, hred, hnext⟩ := hang_same t₁ (addrOf m) y.addr x.addr
  have hrot : RedBlackTree.rightRotate t y.addr = { hang t₁ (addrOf m) y.addr x.addr with
      right := update (hang t₁ (addrOf m) y.addr x.addr).right x.addr y.addr
      parent := update (hang t₁ (addrOf m) y.addr x.addr).parent y.addr x.addr } := by
    simp only [RedBlackTree.rightRotate, hyl, hx.right, ht₁]
  have T : Turned t (RedBlackTree.rightRotate t y.addr) ctx m y.addr x.addr := by
    rw [hrot]
    refine A.turned h.above hsame (by rw [ht₁]) hy.parent (hkey.trans (by rw [ht₁])) (hinfo.trans (by rw [ht₁]))
      (hred.trans (by rw [ht₁])) (hnext.trans (by rw [ht₁])) (fun b hb => rfl) (fun b hb => update_of_ne hb _ _)
      rfl
  have hy' : IsNode (RedBlackTree.rightRotate t y.addr) x.addr d (addrOf m) y (addrOf r) := by
    refine ⟨?_, ?_, ?_, ?_, ?_, T.parent_low⟩
    · rw [T.key, hy.key]
    · rw [T.info, hy.info]
    · rw [T.red, hy.red]
    · rw [hrot]
      simp only [(hlinks _ hpy.symm).1, hleft₁, update_self]
    · rw [hrot]
      simp only [update_of_ne A.ne, (hlinks _ hpy.symm).2, hright₁, hy.right]
  have hx' : IsNode (RedBlackTree.rightRotate t y.addr) (holeParent ctx) c (addrOf l) x y.addr := by
    refine ⟨?_, ?_, ?_, ?_, ?_, T.parent_top⟩
    · rw [T.key, hx.key]
    · rw [T.info, hx.info]
    · rw [T.red, hx.red]
    · rw [hrot]
      simp only [(hlinks _ hpx.symm).1, hleft₁, update_of_ne A.ne.symm, hx.left]
    · rw [hrot]
      simp only [update_self]
  exact Turned.focus (u := .node c l x (.node d m y r)) T h hlist ⟨hx',
    T.outer hl A.hr fun b hb => A.lt b (.inr (.inr (.inl hb))), hy', T.middle A hm,
    T.outer hr A.hl fun b hb => A.lt b (.inl hb)⟩

end

end OmpSs.Mcxx.RedBlackTree
