import OmpSs.Mcxx.RedBlackTreeMap

/-!
# Search trees whose comparison may change them

`const_value_return_unique` (`cxx-cexpr.c:392`) looks a new constant up in a red-black tree and returns the one
that is there, or puts the new one in. Its comparison may put constants into the tree that is being searched: a
search then goes on from the node where it was, whatever the rotations have made of it. The functions below are
those of `red_black_tree.c` for a `comp_func` that gets the pool and returns it.

A comparison that leaves the tree alone `Leaves` it. If those on the way of a key do, the pool stays a search
tree, and what is returned is the constant that is found, or else the new one (`constValueReturnUnique_found`,
`constValueReturnUnique_new`).
-/

namespace OmpSs.Mcxx.ConstPool

open OmpSs.Lib OmpSs.Mcxx.RedBlackTree Function

/-- `_const_value_pool`, where the key of a node is a constant and its information the address of the constant;
`next` is the address of the constant that is allocated next. -/
structure Pool (K : Type) where
  tree : RbTree K Nat
  next : Nat

namespace Pool

section
variable {K : Type} (compFunc : K → K → Pool K → Option (Int × Pool K))

def setTree (s : Pool K) (t : RbTree K Nat) : Pool K := { s with tree := t }

@[simp] theorem setTree_tree (s : Pool K) (t : RbTree K Nat) : (s.setTree t).tree = t := rfl

/-- The bound of the rounds of a loop. A search goes down one level in every round, but where one of the 256
characters comes in above it. -/
def rounds (s : Pool K) : Nat := 257 * (s.tree.next + 256)

/-- The loop of `rb_tree_query` (`red_black_tree.c:585`). -/
def queryLoop (q : K) : Nat → Nat → Pool K → Option (Option Nat × Pool K)
  | 0, _, _ => none
  | fuel + 1, x, s =>
    if x = nil then some (none, s)
    else (compFunc (s.tree.key x) q s).bind fun (compVal, s) =>
      if compVal = 0 then some (some x, s)
      else queryLoop q fuel (if 0 < compVal then s.tree.left x else s.tree.right x) s

/-- Source: `rb_tree_query` (`red_black_tree.c:579`). -/
def rbTreeQuery (q : K) (s : Pool K) : Option (Option Nat × Pool K) :=
  queryLoop compFunc q s.rounds (s.tree.left root) s

/-- The loop of `TreeInsertHelp` (`red_black_tree.c:254`). -/
def insertLoop (key : K) : Nat → Nat → Nat → Pool K → Option (Nat × Pool K)
  | 0, _, _, _ => none
  | fuel + 1, y, x, s =>
    if x = nil then some (y, s)
    else (compFunc (s.tree.key x) key s).bind fun (compVal, s) =>
      insertLoop key fuel x (if 0 < compVal then s.tree.left x else s.tree.right x) s

/-- The test in which `TreeInsertHelp` ends (`red_black_tree.c:263`). -/
def isLeft (key : K) (y : Nat) (s : Pool K) : Option (Bool × Pool K) :=
  if y = root then some (true, s)
  else (compFunc (s.tree.key y) key s).map fun (compVal, s) => (decide (0 < compVal), s)

/-- Source: `TreeInsertHelp` (`red_black_tree.c:245`) for a node `z` with the given key. -/
def treeInsertHelp (key : K) (z : Nat) (s : Pool K) : Option (Pool K) :=
  let s := s.setTree (detach s.tree z)
  (insertLoop compFunc key s.rounds root (s.tree.left root) s).bind fun (y, s) =>
    (isLeft compFunc key y (s.setTree (setParent s.tree z y))).map fun (left, s) =>
      s.setTree (attach s.tree left y z)

/-- Source: `rb_tree_add` (`red_black_tree.c:296`). -/
def rbTreeAdd (key : K) (info : Nat) (s : Pool K) : Option (Pool K) :=
  let x := s.tree.next
  (treeInsertHelp compFunc key x (s.setTree (newNode s.tree key info))).bind fun s =>
    (fixLoop s.tree.next (setRed s.tree x true) x).map fun t => s.setTree (setRed t (t.left root) false)

/-- Source: `rb_tree_insert` (`red_black_tree.c:352`). -/
def rbTreeInsert (key : K) (info : Nat) (s : Pool K) : Option (Pool K) :=
  (rbTreeQuery compFunc key s).bind fun
    | (some node, s) => some (s.setTree { s.tree with info := update s.tree.info node info })
    | (none, s) => rbTreeAdd compFunc key info s

/-- The constant `v` is allocated and made unique: the address of the constant that is kept. Source:
`const_value_return_unique` (`cxx-cexpr.c:392`). -/
def constValueReturnUnique (v : K) (s : Pool K) : Option (Nat × Pool K) :=
  let p := s.next
  (rbTreeQuery compFunc v { s with next := p + 1 }).bind fun
    | (some n, s) => some (s.tree.info n, s)
    | (none, s) => (rbTreeInsert compFunc v p s).map fun s => (p, s)

end

/-! ## Comparisons that do the same -/

section
variable {K : Type} {f g : K → K → Pool K → Option (Int × Pool K)} {q : K}

theorem queryLoop_congr (h : ∀ k s, f k q s = g k q s) (fuel x : Nat) (s : Pool K) :
    queryLoop f q fuel x s = queryLoop g q fuel x s := by
  induction fuel generalizing x s with
  | zero => rfl
  | succ fuel ih => simp only [queryLoop, h, ih]

theorem insertLoop_congr (h : ∀ k s, f k q s = g k q s) (fuel y x : Nat) (s : Pool K) :
    insertLoop f q fuel y x s = insertLoop g q fuel y x s := by
  induction fuel generalizing y x s with
  | zero => rfl
  | succ fuel ih => simp only [insertLoop, h, ih]

/-- Only the comparisons with the constant itself matter. -/
theorem constValueReturnUnique_congr (h : ∀ k s, f k q s = g k q s) (s : Pool K) :
    constValueReturnUnique f q s = constValueReturnUnique g q s := by
  have hquery : ∀ s, rbTreeQuery f q s = rbTreeQuery g q s := fun s => queryLoop_congr h _ _ s
  have hhelp : ∀ z s, treeInsertHelp f q z s = treeInsertHelp g q z s := fun z s => by
    simp only [treeInsertHelp, insertLoop_congr h, isLeft, h]
  simp only [constValueReturnUnique, rbTreeInsert, rbTreeAdd, hquery, hhelp]

end

/-! ## Comparisons that leave the tree alone -/

section
variable {K : Type} {compFunc : K → K → Pool K → Option (Int × Pool K)} {c : K → K → Int} {t t' : RbTree K Nat}
  {s : Pool K} {q : K} {fuel rounds x y z : Nat} {es : List (Entry K Nat)}

/-- The comparison leaves the tree as it is, and its result is that of `c`. -/
def Leaves (compFunc : K → K → Pool K → Option (Int × Pool K)) (c : K → K → Int) (t : RbTree K Nat) (k q : K) :
    Prop :=
  ∀ s : Pool K, s.tree = t → ∃ s', compFunc k q s = some (c k q, s') ∧ s'.tree = t ∧ s.next ≤ s'.next

theorem queryLoop_of_leaves {r : Option Nat} (hleaves : ∀ k ∈ visited c t q fuel x, Leaves compFunc c t k q)
    (hs : s.tree = t) (hfuel : fuel ≤ rounds) (h : RedBlackTree.queryLoop c t q fuel x = some r) :
    ∃ s', queryLoop compFunc q rounds x s = some (r, s') ∧ s'.tree = t ∧ s.next ≤ s'.next := by
  induction fuel generalizing x s rounds with
  | zero => cases h
  | succ fuel ih =>
    obtain ⟨rounds, rfl⟩ := Nat.exists_eq_add_of_le' (Nat.le_trans (Nat.le_add_left 1 fuel) hfuel)
    rw [RedBlackTree.queryLoop] at h
    rw [visited] at hleaves
    rw [queryLoop]
    by_cases hx : x = nil
    · rw [if_pos hx] at h ⊢
      cases h
      exact ⟨s, rfl, hs, Nat.le_refl _⟩
    · rw [if_neg hx] at h hleaves ⊢
      obtain ⟨s₁, hrun, hs₁, hle⟩ := hleaves (t.key x) List.mem_cons_self s hs
      rw [hs, hrun, Option.bind_some]
      dsimp only
      by_cases hzero : c (t.key x) q = 0
      · rw [if_pos hzero] at h ⊢
        cases h
        exact ⟨s₁, rfl, hs₁, hle⟩
      · rw [if_neg hzero] at h hleaves ⊢
        obtain ⟨s', hrun', hs', hle'⟩ :=
          ih (fun k hk => hleaves k (List.mem_cons_of_mem _ hk)) hs₁ (Nat.le_of_succ_le_succ hfuel) h
        rw [hs₁]
        exact ⟨s', hrun', hs', Nat.le_trans hle hle'⟩

/-- The way of a key that is not there is the one of the query for it. -/
theorem insertLoop_of_leaves (hleaves : ∀ k ∈ visited c t q fuel x, Leaves compFunc c t k q) (hs : s.tree = t)
    (hfuel : fuel ≤ rounds) (hquery : RedBlackTree.queryLoop c t q fuel x = some none)
    (h : RedBlackTree.insertLoop c t q fuel y x = some z) :
    ∃ s', insertLoop compFunc q rounds y x s = some (z, s') ∧ s'.tree = t ∧ s.next ≤ s'.next ∧
      (z = y ∨ t.key z ∈ visited c t q fuel x) := by
  induction fuel generalizing x y s rounds with
  | zero => cases h
  | succ fuel ih =>
    obtain ⟨rounds, rfl⟩ := Nat.exists_eq_add_of_le' (Nat.le_trans (Nat.le_add_left 1 fuel) hfuel)
    rw [RedBlackTree.insertLoop] at h
    rw [RedBlackTree.queryLoop] at hquery
    rw [visited] at hleaves ⊢
    rw [insertLoop]
    by_cases hx : x = nil
    · rw [if_pos hx] at h ⊢
      cases h
      exact ⟨s, rfl, hs, Nat.le_refl _, .inl rfl⟩
    · rw [if_neg hx] at h hquery hleaves ⊢
      obtain ⟨s₁, hrun, hs₁, hle⟩ := hleaves (t.key x) List.mem_cons_self s hs
      rw [hs, hrun, Option.bind_some, if_neg hx]
      dsimp only
      have hzero : c (t.key x) q ≠ 0 := fun hzero => by
        rw [if_pos hzero] at hquery
        cases hquery
      rw [if_neg hzero] at hquery hleaves ⊢
      obtain ⟨s', hrun', hs', hle', hz⟩ :=
        ih (fun k hk => hleaves k (List.mem_cons_of_mem _ hk)) hs₁ (Nat.le_of_succ_le_succ hfuel) hquery h
      rw [hs₁]
      refine ⟨s', hrun', hs', Nat.le_trans hle hle', .inr ?_⟩
      rcases hz with rfl | hz
      · exact List.mem_cons_self
      · exact List.mem_cons_of_mem _ hz

theorem next_le_rounds (s : Pool K) : s.tree.next ≤ s.rounds := by
  unfold Pool.rounds
  omega

theorem rbTreeQuery_of_leaves {r : Option Nat}
    (hleaves : ∀ k ∈ visited c s.tree q s.tree.next (s.tree.left root), Leaves compFunc c s.tree k q)
    (h : RedBlackTree.rbTreeQuery c s.tree q = some r) :
    ∃ s', rbTreeQuery compFunc q s = some (r, s') ∧ s'.tree = s.tree ∧ s.next ≤ s'.next :=
  queryLoop_of_leaves hleaves rfl s.next_le_rounds h

theorem isLeft_of_leaves (s : Pool K) (h : y = root ∨ Leaves compFunc c s.tree (s.tree.key y) q) :
    ∃ s', isLeft compFunc q y s = some (decide (y = root ∨ 0 < c (s.tree.key y) q), s') ∧ s'.tree = s.tree ∧
      s.next ≤ s'.next := by
  unfold isLeft
  by_cases hy : y = root
  · exact ⟨s, by simp [hy], rfl, Nat.le_refl _⟩
  · obtain ⟨s', hrun, hs', hle⟩ := h.resolve_left hy s rfl
    exact ⟨s', by simp [hy, hrun], hs', hle⟩

theorem treeInsertHelp_of_leaves {t₄ : RbTree K Nat} (hkey : s.tree.key z = q)
    (hquery : RedBlackTree.rbTreeQuery c (detach s.tree z) q = some none)
    (hleaves : ∀ k ∈ visited c (detach s.tree z) q s.tree.next ((detach s.tree z).left root),
      Leaves compFunc c (detach s.tree z) k q ∧ ∀ y, Leaves compFunc c (setParent (detach s.tree z) z y) k q)
    (h : RedBlackTree.treeInsertHelp c s.tree z = some t₄) :
    ∃ s', treeInsertHelp compFunc q z s = some s' ∧ s'.tree = t₄ ∧ s.next ≤ s'.next := by
  obtain ⟨y, hloop, rfl⟩ := Option.map_eq_some_iff.1 h
  have hkey' : (detach s.tree z).key z = q := hkey
  rw [hkey'] at hloop
  obtain ⟨s₁, hrun₁, hs₁, hle₁, hy⟩ := insertLoop_of_leaves (s := s.setTree (detach s.tree z))
    (fun k hk => (hleaves k hk).1) rfl (next_le_rounds (s.setTree (detach s.tree z))) hquery hloop
  obtain ⟨s₂, hrun₂, hs₂, hle₂⟩ := isLeft_of_leaves (s₁.setTree (setParent (detach s.tree z) z y))
    (hy.imp_right fun hy => (hleaves (s.tree.key y) hy).2 y)
  refine ⟨s₂.setTree (attach s₂.tree (decide (y = root ∨ 0 < c (s.tree.key y) q)) y z), ?_, ?_,
    Nat.le_trans hle₁ hle₂⟩
  · unfold treeInsertHelp
    dsimp only
    rw [setTree_tree, hrun₁, Option.bind_some, hs₁, hrun₂]
    rfl
  · rw [hs₂, ← hkey]
    rfl

/-- The links of the tree are there while a node is added. -/
theorem sameLinks_detach (h : root < t.next) (key : K) (info : Nat) :
    SameLinks t (detach (newNode t key info) t.next) := by
  refine ⟨?_, Nat.le_succ _, fun b _ hb => ?_⟩
  · exact update_of_ne (Nat.ne_of_lt h) _ _
  · have hne : b ≠ t.next := Nat.ne_of_lt hb
    exact ⟨update_of_ne hne _ _, update_of_ne hne _ _, update_of_ne hne _ _⟩

/-- A key that is not there is added. -/
theorem rbTreeAdd_of_leaves (hv : Valid c s.tree es) (hc : ThreeWay c) (hnone : lookup c es q = none)
    (hleaves : ∀ t, SameLinks s.tree t → ∀ k ∈ visited c s.tree q s.tree.next (s.tree.left root),
      Leaves compFunc c t k q) (info : Nat) :
    ∃ s' es', rbTreeAdd compFunc q info s = some s' ∧ Valid c s'.tree es' ∧
      es'.Perm (⟨s.tree.next, q, info⟩ :: es) ∧ s.next ≤ s'.next := by
  obtain ⟨t', es', hadd, hv', hperm⟩ := hv.rbTreeAdd hc hnone info
  obtain ⟨t₄, hhelp, hadd⟩ := Option.bind_eq_some_iff.1 hadd
  obtain ⟨t₅, hfix, hadd⟩ := Option.bind_eq_some_iff.1 hadd
  obtain rfl := (Prod.mk.inj (Option.some.inj hadd)).1
  have hsame := sameLinks_detach hv.holds.next_gt q info
  have hparent : ∀ y, SameLinks s.tree (setParent (detach (newNode s.tree q info) s.tree.next) s.tree.next y) :=
    fun y => ⟨hsame.top, hsame.next, hsame.node⟩
  obtain ⟨hquery, hvisited⟩ := hv.query hc hsame q
  rw [hnone] at hquery
  obtain ⟨s', hrun, rfl, hle⟩ := treeInsertHelp_of_leaves (s := s.setTree (newNode s.tree q info))
    (update_self _ _ _) hquery (fun k hk => ⟨hleaves _ hsame k (hvisited ▸ hk), fun y =>
      hleaves _ (hparent y) k (hvisited ▸ hk)⟩) hhelp
  refine ⟨s'.setTree (setRed t₅ (t₅.left root) false), es', ?_, hv', hperm, hle⟩
  unfold rbTreeAdd
  dsimp only
  rw [hrun, Option.bind_some, hfix]
  rfl

/-- A constant that is there is found, also while a node is added. -/
theorem constValueReturnUnique_found {e : Entry K Nat} (hv : Valid c t es) (hc : ThreeWay c)
    (he : lookup c es q = some e) (hsame : SameLinks t s.tree)
    (hleaves : ∀ k ∈ visited c t q t.next (t.left root), Leaves compFunc c s.tree k q) :
    ∃ s', constValueReturnUnique compFunc q s = some (s.tree.info e.addr, s') ∧ s'.tree = s.tree ∧
      s.next ≤ s'.next := by
  obtain ⟨hquery, hvisited⟩ := hv.query hc hsame q
  rw [he, Option.map_some] at hquery
  obtain ⟨s', hrun, hs', hle⟩ := rbTreeQuery_of_leaves (s := { s with next := s.next + 1 })
    (fun k hk => hleaves k (hvisited ▸ hk)) hquery
  refine ⟨s', ?_, hs', Nat.le_of_succ_le hle⟩
  unfold constValueReturnUnique
  dsimp only
  rw [hrun, Option.bind_some]
  dsimp only
  rw [hs']

/-- A constant that is not there is put in. -/
theorem constValueReturnUnique_new (hv : Valid c s.tree es) (hc : ThreeWay c) (hnone : lookup c es q = none)
    (hleaves : ∀ t, SameLinks s.tree t → ∀ k ∈ visited c s.tree q s.tree.next (s.tree.left root),
      Leaves compFunc c t k q) :
    ∃ s' es', constValueReturnUnique compFunc q s = some (s.next, s') ∧ Valid c s'.tree es' ∧
      es'.Perm (⟨s.tree.next, q, s.next⟩ :: es) ∧ s.next < s'.next := by
  have hquery := (hv.query hc (.refl _) q).1
  rw [hnone, Option.map_none] at hquery
  obtain ⟨s₁, hrun₁, hs₁, hle₁⟩ := rbTreeQuery_of_leaves (s := { s with next := s.next + 1 })
    (hleaves s.tree (.refl _)) hquery
  dsimp only at hs₁
  have hleaves₁ : ∀ k ∈ visited c s₁.tree q s₁.tree.next (s₁.tree.left root), Leaves compFunc c s₁.tree k q := by
    rw [hs₁]
    exact hleaves s.tree (.refl _)
  obtain ⟨s₂, hrun₂, hs₂, hle₂⟩ := rbTreeQuery_of_leaves hleaves₁ (hs₁ ▸ hquery)
  rw [hs₁] at hs₂
  obtain ⟨s', es', hadd, hv', hperm, hle⟩ := rbTreeAdd_of_leaves (s := s₂) (hs₂ ▸ hv) hc hnone
    (hs₂ ▸ hleaves) s.next
  refine ⟨s', es', ?_, hv', hs₂ ▸ hperm, Nat.le_trans hle₁ (Nat.le_trans hle₂ hle)⟩
  unfold constValueReturnUnique rbTreeInsert
  dsimp only
  rw [hrun₁, Option.bind_some]
  dsimp only
  rw [hrun₂, Option.bind_some]
  dsimp only
  rw [hadd]
  rfl

end

end Pool

end OmpSs.Mcxx.ConstPool
