import OmpSs.Mcxx.RedBlackTree

/-!
# Insertion into the red-black tree

The loop of `rb_tree_add` (`mcxx/lib/red_black_tree.c:308`) starts at a new red node, which may be below
another red node. Its invariant is `Fixing`: the memory holds a tree with the entries it is to have, whose top
is black, unless the red node `x` is the top. So a red parent has a parent; one round keeps the invariant and
comes closer to the root (`Fixing.fixStep`), and the loop ends (`Fixing.fixLoop`). That the tree is balanced as
well is not shown.
-/

namespace OmpSs.Mcxx.RedBlackTree

open Lib.RedBlack Function

section
variable {K V : Type*} {t t' : RbTree K V} {s l r u : BinTree (Entry K V)} {a e g p q : Entry K V} {c d : Bool}
  {ctx : List (Frame (Entry K V))} {x k : Nat} {es : List (Entry K V)}

/-- A red node is a node: `nil` is black. -/
theorem Rep.node_of_red {p : Nat} (h : Rep t p s) (hnil : t.red nil = false) (hred : t.red (addrOf s) = true) :
    ∃ l a r, s = .node true l a r := by
  cases s with
  | nil => exact absurd (hnil.symm.trans hred) Bool.false_ne_true
  | node c l a r =>
    obtain rfl : c = true := h.1.red.symm.trans hred
    exact ⟨l, a, r, rfl⟩

/-- A node is not the other child of its parent. -/
theorem Focus.ne_sibling {f : Frame (Entry K V)} (h : Focus t (f :: ctx) (.node c l a r)) :
    a.addr ≠ addrOf f.sibling := by
  intro heq
  have hroot := h.root_lt (.inl (show a.addr ∈ addrs (.node c l a r) by simp))
  have hne : addrOf f.sibling ≠ nil := by
    intro h0
    rw [heq, h0] at hroot
    exact absurd hroot (by decide)
  have hmem : a.addr ∈ around (f :: ctx) := by
    rw [heq]
    exact mem_around_cons.2 (.inr (.inl (addrOf_mem hne)))
  exact (nodup_plug.1 h.nodup).2.2 a.addr (by simp) hmem

/-- The node above the hole. -/
theorem Focus.frame {f : Frame (Entry K V)} (h : Focus t (f :: ctx) s) :
    t.parent f.entry.addr = holeParent ctx ∧ t.red f.entry.addr = f.isRed :=
  ⟨h.above.1.parent, h.above.1.red⟩

theorem Frame.fill_eq {f : Frame (Entry K V)} (hf : f.isRed = true) (s : BinTree (Entry K V)) :
    ∃ l r, f.fill s = .node true l f.entry r := by
  cases f with
  | left c b r =>
    cases hf
    exact ⟨s, r, rfl⟩
  | right c l b =>
    cases hf
    exact ⟨l, s, rfl⟩

/-- The node at the top is black. -/
def TopBlack (ctx : List (Frame (Entry K V))) : Prop := ∀ f ∈ ctx.getLast?, f.isRed = false

theorem TopBlack.cons {f : Frame (Entry K V)} (h : TopBlack ctx) (hf : f.isRed = false) : TopBlack (f :: ctx) := by
  intro f' hf'
  cases ctx with
  | nil =>
    cases hf'
    exact hf
  | cons g ctx => exact h f' (by rwa [List.getLast?_cons_cons] at hf')

theorem RepCtx.topBlack {b : Nat} (h : RepCtx t b ctx) (hblack : t.red (t.left root) = false) : TopBlack ctx := by
  induction ctx generalizing b with
  | nil => exact fun f hf => nomatch hf
  | cons f ctx ih =>
    obtain ⟨hf, -, hctx⟩ := h
    cases ctx with
    | nil =>
      have htop : t.left root = f.entry.addr := hctx
      rw [htop, hf.red] at hblack
      exact TopBlack.cons (fun f hf => nomatch hf) hblack
    | cons g ctx =>
      intro f' hf'
      exact ih hctx f' (by rwa [List.getLast?_cons_cons] at hf')

/-! ## One round of the loop -/

/-- The three changes of colour when the uncle is red. -/
theorem focus_recolourLeft {u₁ u₂ : BinTree (Entry K V)}
    (h : Focus t (.left c g (.node true u₁ a u₂) :: ctx) (.node true l p r)) :
    Focus (setRed (setRed (setRed t p.addr false) a.addr false) g.addr true) ctx
      (.node true (.node false l p r) g (.node false u₁ a u₂)) := by
  have h₁ := Focus.zoom_iff.1 (h.setRed false)
  have h₂ : Focus _ (.right c (.node false l p r) g :: ctx) (.node true u₁ a u₂) := Focus.zoom_iff.2 h₁
  have h₃ := Focus.zoom_iff.1 (h₂.setRed false)
  exact Focus.setRed h₃ true

theorem focus_recolourRight {u₁ u₂ : BinTree (Entry K V)}
    (h : Focus t (.right c (.node true u₁ a u₂) g :: ctx) (.node true l p r)) :
    Focus (setRed (setRed (setRed t p.addr false) a.addr false) g.addr true) ctx
      (.node true (.node false u₁ a u₂) g (.node false l p r)) := by
  have h₁ := Focus.zoom_iff.1 (h.setRed false)
  have h₂ : Focus _ (.left c g (.node false l p r) :: ctx) (.node true u₁ a u₂) := Focus.zoom_iff.2 h₁
  have h₃ := Focus.zoom_iff.1 (h₂.setRed false)
  exact Focus.setRed h₃ true

/-- The invariant of the loop, `k` nodes below the root at most. -/
def Fixing (t : RbTree K V) (x k : Nat) (es : List (Entry K V)) : Prop :=
  ∃ ctx l e r, e.addr = x ∧ ctx.length ≤ k ∧ Focus t ctx (.node true l e r) ∧ TopBlack ctx ∧
    (plug ctx (.node true l e r)).toList = es

/-- The changes when the uncle is black: the parent goes above the grandparent. -/
theorem fixing_turnRight (h : Focus t (.left true q r :: .left c g u :: ctx) (.node true l e s))
    (hctx : TopBlack ctx) (hlen : ctx.length + 2 ≤ k)
    (hlist : (plug ctx (.node c (.node true (.node true l e s) q r) g u)).toList = es) :
    Fixing (rightRotate (setRed (setRed t q.addr false) g.addr true) g.addr) e.addr (k - 1) es := by
  have h₁ := Focus.zoom_iff.1 (Focus.setRed (Focus.zoom_iff.1 h) false)
  have h₂ : Focus _ (.left false q (.node true r g u) :: ctx) (.node true l e s) :=
    Focus.zoom_iff.2 (Focus.rightRotate (Focus.setRed h₁ true))
  refine ⟨_, l, e, s, rfl, ?_, h₂, hctx.cons rfl, ?_⟩
  · rw [List.length_cons]
    omega
  · rw [← hlist]
    exact toList_plug_congr (by simp [Frame.fill]) ctx

theorem fixing_turnLeft (h : Focus t (.right true r q :: .right c u g :: ctx) (.node true l e s))
    (hctx : TopBlack ctx) (hlen : ctx.length + 2 ≤ k)
    (hlist : (plug ctx (.node c u g (.node true r q (.node true l e s)))).toList = es) :
    Fixing (leftRotate (setRed (setRed t q.addr false) g.addr true) g.addr) e.addr (k - 1) es := by
  have h₁ := Focus.zoom_iff.1 (Focus.setRed (Focus.zoom_iff.1 h) false)
  have h₂ : Focus _ (.right false (.node true u g r) q :: ctx) (.node true l e s) :=
    Focus.zoom_iff.2 (Focus.leftRotate (Focus.setRed h₁ true))
  refine ⟨_, l, e, s, rfl, ?_, h₂, hctx.cons rfl, ?_⟩
  · rw [List.length_cons]
    omega
  · rw [← hlist]
    exact toList_plug_congr (by simp [Frame.fill]) ctx

/-- What a round reads where the parent is a left child. -/
theorem Focus.reads_left {f : Frame (Entry K V)}
    (h : Focus t (f :: .left c g u :: ctx) (.node true l e r)) :
    t.parent e.addr = f.entry.addr ∧ t.parent f.entry.addr = g.addr ∧ t.left g.addr = f.entry.addr ∧
      t.right g.addr = addrOf u := by
  have hup := Focus.zoom_iff.1 h
  refine ⟨h.sub.1.parent, h.frame.1, hup.above.1.left.trans ?_, hup.above.1.right⟩
  cases f <;> rfl

/-- What it reads where the parent is a right child. -/
theorem Focus.reads_right {f : Frame (Entry K V)}
    (h : Focus t (f :: .right c u g :: ctx) (.node true l e r)) :
    t.parent e.addr = f.entry.addr ∧ t.parent f.entry.addr = g.addr ∧ t.left g.addr = addrOf u ∧
      f.entry.addr ≠ addrOf u := by
  have hup := Focus.zoom_iff.1 h
  refine ⟨h.sub.1.parent, h.frame.1, hup.above.1.left, ?_⟩
  cases f with
  | left c b s => exact hup.ne_sibling
  | right c s b => exact hup.ne_sibling

theorem fixStep_left {f : Frame (Entry K V)} (h : Focus t (f :: .left c g u :: ctx) (.node true l e r))
    (hf : f.isRed = true) (hctx : TopBlack ctx) (hlen : ctx.length + 2 ≤ k) :
    Fixing (fixStep t e.addr).1 (fixStep t e.addr).2 (k - 1)
      (plug (f :: .left c g u :: ctx) (.node true l e r)).toList := by
  obtain ⟨hp, hg, hgl, hgr⟩ := h.reads_left
  have hup := Focus.zoom_iff.1 h
  cases hucol : t.red (addrOf u) with
  | true =>
    obtain ⟨u₁, a, u₂, rfl⟩ := hup.above.2.1.node_of_red h.nil_black hucol
    obtain ⟨L, R, hfill⟩ := Frame.fill_eq hf (.node true l e r)
    rw [hfill] at hup
    have hstep : fixStep t e.addr =
        (setRed (setRed (setRed t f.entry.addr false) a.addr false) g.addr true, g.addr) := by
      have hua : addrOf (.node true u₁ a u₂) = a.addr := rfl
      rw [hua] at hucol hgr
      simp only [fixStep, hp, hg, hgl, hgr, hucol, setRed, if_true]
    rw [hstep]
    refine ⟨ctx, .node false L f.entry R, g, .node false u₁ a u₂, rfl, by omega, focus_recolourLeft hup, hctx, ?_⟩
    rw [plug, plug, hfill]
    exact toList_plug_congr (by simp [Frame.fill]) ctx
  | false =>
    cases f with
    | left d b s =>
      obtain rfl : d = true := hf
      -- `x` is the left child, so it stays where it is
      have hne : e.addr ≠ t.right b.addr := fun heq => h.ne_sibling (heq.trans h.above.1.right)
      have hstep : fixStep t e.addr =
          (rightRotate (setRed (setRed t b.addr false) g.addr true) g.addr, e.addr) := by
        simp only [Frame.entry] at hp hg hgl
        simp only [fixStep, hp, hg, hgl, hgr, hucol, setRed, if_true, if_neg hne, Bool.false_eq_true, if_false]
      rw [hstep]
      exact fixing_turnRight h hctx hlen rfl
    | right d s b =>
      obtain rfl : d = true := hf
      -- `x` is the right child, so its parent goes below it first
      have hright : t.right b.addr = e.addr := h.above.1.right
      have hrot : Focus (leftRotate t b.addr) (.left true e r :: .left c g u :: ctx) (.node true s b l) :=
        Focus.zoom_iff.2 hup.leftRotate
      obtain ⟨hp', hg', -, -⟩ := hrot.reads_left
      have hstep : fixStep t e.addr =
          (rightRotate (setRed (setRed (leftRotate t b.addr) e.addr false) g.addr true) g.addr, b.addr) := by
        simp only [Frame.entry] at hp hg hgl hp' hg'
        simp only [fixStep, hp, hg, hgl, hgr, hucol, hright, setRed, if_true, Bool.false_eq_true, if_false,
          hp', hg']
      rw [hstep]
      exact fixing_turnRight hrot hctx hlen (toList_plug_congr (by simp [Frame.fill]) ctx)

theorem fixStep_right {f : Frame (Entry K V)} (h : Focus t (f :: .right c u g :: ctx) (.node true l e r))
    (hf : f.isRed = true) (hctx : TopBlack ctx) (hlen : ctx.length + 2 ≤ k) :
    Fixing (fixStep t e.addr).1 (fixStep t e.addr).2 (k - 1)
      (plug (f :: .right c u g :: ctx) (.node true l e r)).toList := by
  obtain ⟨hp, hg, hgl, hgne⟩ := h.reads_right
  have hup := Focus.zoom_iff.1 h
  cases hucol : t.red (addrOf u) with
  | true =>
    obtain ⟨u₁, a, u₂, rfl⟩ := hup.above.2.1.node_of_red h.nil_black hucol
    obtain ⟨L, R, hfill⟩ := Frame.fill_eq hf (.node true l e r)
    rw [hfill] at hup
    have hstep : fixStep t e.addr =
        (setRed (setRed (setRed t f.entry.addr false) a.addr false) g.addr true, g.addr) := by
      have hua : addrOf (.node true u₁ a u₂) = a.addr := rfl
      rw [hua] at hucol hgl hgne
      simp only [fixStep, hp, hg, hgl, if_neg hgne, hucol, setRed, if_true]
    rw [hstep]
    refine ⟨ctx, .node false u₁ a u₂, g, .node false L f.entry R, rfl, by omega, focus_recolourRight hup, hctx, ?_⟩
    rw [plug, plug, hfill]
    exact toList_plug_congr (by simp [Frame.fill]) ctx
  | false =>
    cases f with
    | left d b s =>
      obtain rfl : d = true := hf
      -- `x` is the left child, so its parent goes below it first
      have hleft : t.left b.addr = e.addr := h.above.1.left
      have hrot : Focus (rightRotate t b.addr) (.right true l e :: .right c u g :: ctx) (.node true r b s) :=
        Focus.zoom_iff.2 hup.rightRotate
      obtain ⟨hp', hg', -, -⟩ := hrot.reads_right
      have hstep : fixStep t e.addr =
          (leftRotate (setRed (setRed (rightRotate t b.addr) e.addr false) g.addr true) g.addr, b.addr) := by
        simp only [Frame.entry] at hp hg hgne hp' hg'
        simp only [fixStep, hp, hg, hgl, if_neg hgne, hucol, hleft, setRed, if_true, Bool.false_eq_true, if_false,
          hp', hg']
      rw [hstep]
      exact fixing_turnLeft hrot hctx hlen (toList_plug_congr (by simp [Frame.fill]) ctx)
    | right d s b =>
      obtain rfl : d = true := hf
      -- `x` is the right child, so it stays where it is
      have hne : e.addr ≠ t.left b.addr := fun heq => h.ne_sibling (heq.trans h.above.1.left)
      have hstep : fixStep t e.addr =
          (leftRotate (setRed (setRed t b.addr false) g.addr true) g.addr, e.addr) := by
        simp only [Frame.entry] at hp hg hgne
        simp only [fixStep, hp, hg, hgl, if_neg hgne, hucol, setRed, if_neg hne, Bool.false_eq_true, if_false]
      rw [hstep]
      exact fixing_turnLeft h hctx hlen rfl

/-- One round keeps the invariant and comes closer to the root. -/
theorem Fixing.fixStep (h : Fixing t x k es) (hred : t.red (t.parent x) = true) :
    0 < k ∧ Fixing (fixStep t x).1 (fixStep t x).2 (k - 1) es := by
  obtain ⟨ctx, l, e, r, rfl, hlen, hfocus, htop, rfl⟩ := h
  rw [hfocus.sub.1.parent] at hred
  cases ctx with
  | nil => exact absurd (hfocus.root_black.symm.trans hred) Bool.false_ne_true
  | cons f ctx =>
    have hf : f.isRed = true := hfocus.frame.2.symm.trans hred
    cases ctx with
    | nil => exact absurd ((htop f rfl).symm.trans hf) Bool.false_ne_true
    | cons f' ctx =>
      have hctx : TopBlack ctx := by
        cases ctx with
        | nil => exact fun f hf => nomatch hf
        | cons f'' ctx => exact fun g hg => htop g (by rwa [List.getLast?_cons_cons, List.getLast?_cons_cons])
      simp only [List.length_cons] at hlen
      cases f' with
      | left c g u => exact ⟨by omega, fixStep_left hfocus hf hctx hlen⟩
      | right c u g => exact ⟨by omega, fixStep_right hfocus hf hctx hlen⟩

/-- **The loop ends.** -/
theorem Fixing.fixLoop {fuel : Nat} (h : Fixing t x k es) (hfuel : k < fuel) :
    ∃ t' x', fixLoop fuel t x = some t' ∧ Fixing t' x' k es := by
  induction fuel generalizing t x k with
  | zero => exact absurd hfuel (Nat.not_lt_zero k)
  | succ fuel ih =>
    rw [RedBlackTree.fixLoop]
    cases hred : t.red (t.parent x) with
    | false => exact ⟨t, x, if_neg Bool.false_ne_true, h⟩
    | true =>
      obtain ⟨hk, hstep⟩ := h.fixStep hred
      obtain ⟨t', x', hloop, ctx, l, e, r, hx, hlen, hrest⟩ := ih hstep (by omega)
      exact ⟨t', x', hloop, ctx, l, e, r, hx, by omega, hrest⟩

/-! ## The tree after the loop -/

/-- The memory holds a tree with the entries `es`, whose top is black. -/
structure Holds (t : RbTree K V) (es : List (Entry K V)) : Prop where
  next_gt : root < t.next
  tree : ∃ s, Focus t [] s ∧ t.red (addrOf s) = false ∧ s.toList = es

/-- A tree with a node has been allocated one. -/
theorem Focus.next_gt (h : Focus t ctx (.node c l a r)) : root < t.next := by
  obtain ⟨h₁, h₂⟩ := (h.range a.addr).1 (mem_plug.2 (.inl (by simp)))
  exact Nat.lt_trans h₁ h₂

/-- With a black top all is well. -/
theorem Fixing.blacken (h : Fixing t x k es) : Holds (setRed t (t.left root) false) es := by
  obtain ⟨ctx, l, e, r, -, -, hfocus, -, rfl⟩ := h
  have hwhole := hfocus.whole
  have hlength := length_le_plug ctx (.node true l e r)
  cases hplug : plug ctx (.node true l e r) with
  | nil => simp [hplug] at hlength
  | node c l' a r' =>
    rw [hplug] at hwhole
    have htop : t.left root = a.addr := hwhole.above
    rw [htop]
    exact ⟨hfocus.next_gt, .node false l' a r', hwhole.setRed false, update_self _ _ _, rfl⟩

/-- Every allocated node is in the tree. -/
theorem Holds.perm (h : Holds t es) : (es.map (·.addr)).Perm (List.range' 2 (t.next - 2)) := by
  obtain ⟨hnext, s, hfocus, -, rfl⟩ := h
  refine (List.perm_ext_iff_of_nodup hfocus.nodup List.nodup_range').2 fun b => ?_
  rw [hfocus.range b, List.mem_range'_1]
  simp only [root] at hnext ⊢
  omega

theorem Holds.length (h : Holds t es) : es.length = t.next - 2 := by
  simpa using h.perm.length_eq

/-! ## The new leaf -/

section
variable {compFunc : K → K → Int} {key : K} {info : V} {fuel : Nat}

/-- Where one goes left to come to `key`. -/
def goesLeft (compFunc : K → K → Int) (key : K) (e : Entry K V) : Bool := decide (0 < compFunc e.key key)

/-- `TreeInsertHelp` finds the way to a leaf. -/
theorem Rep.insertLoop {p : Nat} (ctx : List (Frame (Entry K V))) (h : Rep t p s)
    (hnil : ∀ b ∈ addrs s, b ≠ nil) (hfuel : s.depth < fuel) :
    insertLoop compFunc t key fuel (holeParent ctx) (addrOf s) =
      some (holeParent (descend (goesLeft compFunc key) ctx s)) := by
  induction s generalizing p ctx fuel with
  | nil =>
    obtain ⟨fuel, rfl⟩ := Nat.exists_eq_succ_of_ne_zero (Nat.ne_of_gt hfuel)
    rfl
  | node c l a r ihl ihr =>
    obtain ⟨ha, hl, hr⟩ := h
    obtain ⟨fuel, rfl⟩ := Nat.exists_eq_succ_of_ne_zero (Nat.ne_of_gt (Nat.zero_lt_of_lt hfuel))
    rw [addrs_node] at hnil
    simp only [BinTree.depth] at hfuel
    have hne : a.addr ≠ nil := hnil _ (by simp)
    have hl' : RedBlackTree.insertLoop compFunc t key fuel (holeParent (.left c a r :: ctx)) (addrOf l) =
        some (holeParent (descend (goesLeft compFunc key) (.left c a r :: ctx) l)) :=
      ihl _ hl (fun b hb => hnil b (by simp [hb])) (by omega : l.depth < fuel)
    have hr' : RedBlackTree.insertLoop compFunc t key fuel (holeParent (.right c l a :: ctx)) (addrOf r) =
        some (holeParent (descend (goesLeft compFunc key) (.right c l a :: ctx) r)) :=
      ihr _ hr (fun b hb => hnil b (by simp [hb])) (by omega : r.depth < fuel)
    rw [RedBlackTree.insertLoop, addrOf, if_neg hne, ha.key, ha.left, ha.right, descend, goesLeft]
    by_cases hpos : 0 < compFunc a.key key
    · rw [if_pos hpos, if_pos (decide_eq_true hpos)]
      exact hl'
    · rw [if_neg hpos, if_neg (by simpa using hpos)]
      exact hr'

/-- The link from above to the new leaf, on the side where the search went. -/
theorem attach_eq {z b : Nat} (h : RepCtx t b ctx) (hroot : ∀ b ∈ around ctx, root < b)
    (hchosen : ∀ f ∈ ctx, Frame.Chosen (goesLeft compFunc key) f) :
    attach t (holeParent ctx = root ∨ 0 < compFunc (t.key (holeParent ctx)) key) (holeParent ctx) z =
      setChild t ctx z := by
  cases ctx with
  | nil => rfl
  | cons f ctx =>
    rw [holeParent, h.1.key]
    cases f with
    | left c a r =>
      have hpos : 0 < compFunc a.key key := of_decide_eq_true (hchosen (.left c a r) (by simp))
      exact if_pos (decide_eq_true (.inr hpos))
    | right c l a =>
      have hpos : ¬ 0 < compFunc a.key key := of_decide_eq_false (hchosen (.right c l a) (by simp))
      have hne : a.addr ≠ root := Nat.ne_of_gt (hroot _ (mem_around_cons.2 (.inl rfl)))
      exact if_neg (by simpa using ⟨hne, Int.not_lt.1 hpos⟩)

/-- A node that is not in the tree becomes a leaf of it. -/
theorem Focus.leaf {t₃ : RbTree K V} {z : Nat} (h : Focus t ctx .nil) (hz : z = t.next) (hnext : root < z)
    (hsame : ∀ b, b ≠ z → SameAt t t₃ b) (hkey : t₃.key z = key) (hinfo : t₃.info z = info)
    (hleft : t₃.left z = nil) (hright : t₃.right z = nil) (hparent : t₃.parent z = holeParent ctx)
    (hnext₃ : t₃.next = z + 1) :
    Focus (RedBlackTree.setRed (setChild t₃ ctx z) z true) ctx (.node true .nil ⟨z, key, info⟩ .nil) := by
  have hfresh : ∀ b ∈ around ctx, root < b ∧ b < z := fun b hb => hz ▸ (h.range b).1 (mem_plug.2 (.inr hb))
  have hne : ∀ b, b = root ∨ b ∈ around ctx → b ≠ z := by
    rintro b (hb | hb)
    · exact hb ▸ Nat.ne_of_lt hnext
    · exact Nat.ne_of_lt (hfresh b hb).2
  have hpne : z ≠ holeParent ctx := (hne _ (holeParent_mem ctx)).symm
  have hzsame := setChild_same (t := t₃) ctx z hpne
  have habove : RepCtx (setChild t₃ ctx z) z ctx :=
    (h.above.congr fun b hb => hsame b (hne b hb)).setChild (nodup_plug.1 h.nodup).2.1
      fun b hb => (hfresh b hb).1
  have hred : ∀ b, b ≠ z → SameAt (setChild t₃ ctx z) (RedBlackTree.setRed (setChild t₃ ctx z) z true) b :=
    fun b hb => ⟨rfl, rfl, update_of_ne hb _ _, rfl, rfl, rfl⟩
  have hsentinel : ∀ b, b ≠ z → (RedBlackTree.setRed (setChild t₃ ctx z) z true).red b = t.red b := by
    intro b hb
    rw [(hred b hb).red, (setChild_rest t₃ ctx z).2.1, (hsame b hb).red]
  refine ⟨habove.congr fun b hb => hred b (hne b hb), ⟨⟨?_, ?_, ?_, ?_, ?_, ?_⟩, trivial, trivial⟩,
    ?_, ?_, ?_, ?_⟩
  · exact hzsame.key.trans hkey
  · exact hzsame.info.trans hinfo
  · exact update_self z true (setChild t₃ ctx z).red
  · exact hzsame.left.trans hleft
  · exact hzsame.right.trans hright
  · exact hzsame.parent.trans hparent
  · refine nodup_plug.2 ⟨by simp, (nodup_plug.1 h.nodup).2.1, fun b hb hctx => ?_⟩
    exact hne b (.inr hctx) (List.mem_singleton.1 hb)
  · intro b
    have hrange := h.range b
    have hnext' : (RedBlackTree.setRed (setChild t₃ ctx z) z true).next = z + 1 :=
      (setChild_rest t₃ ctx z).2.2.trans hnext₃
    rw [hnext', mem_plug]
    rw [mem_plug, ← hz] at hrange
    simp only [addrs_node, addrs_nil, List.nil_append, List.mem_singleton, List.not_mem_nil, false_or] at hrange ⊢
    rw [hrange]
    omega
  · rw [hsentinel nil (Nat.ne_of_lt (Nat.lt_trans (by decide) hnext)), h.nil_black]
  · rw [hsentinel root (Nat.ne_of_lt hnext), h.root_black]

/-- A new red leaf hangs where the search for its key ends. -/
theorem exists_treeInsertHelp (h : Focus t [] s) (hnext : root < t.next) (hfuel : s.depth < t.next + 1)
    (compFunc : K → K → Int) (key : K) (info : V) :
    ∃ t', treeInsertHelp compFunc (newNode t key info) t.next = some t' ∧ t'.next = t.next + 1 ∧
      Focus (RedBlackTree.setRed t' t.next true) (descend (goesLeft compFunc key) [] s)
        (.node true .nil ⟨t.next, key, info⟩ .nil) := by
  have hctx : Focus t (descend (goesLeft compFunc key) [] s) .nil := by
    refine Focus.of_whole ?_
    rw [plug_descend]
    exact h
  obtain ⟨ctx, hctx_eq⟩ : ∃ ctx, ctx = descend (goesLeft compFunc key) [] s := ⟨_, rfl⟩
  rw [← hctx_eq] at hctx ⊢
  -- the memory in which the search runs
  obtain ⟨t₂, ht₂⟩ : ∃ t₂, t₂ = detach (newNode t key info) t.next := ⟨_, rfl⟩
  have hsame₂ : ∀ b, b ≠ t.next → SameAt t t₂ b := by
    intro b hb
    rw [ht₂]
    exact ⟨update_of_ne hb _ _, update_of_ne hb _ _, rfl, update_of_ne hb _ _, update_of_ne hb _ _, rfl⟩
  have hmem : ∀ b ∈ addrs s, root < b ∧ b < t.next := fun b hb => (h.range b).1 hb
  have hkey₂ : t₂.key t.next = key := by simp [ht₂, detach, newNode]
  have hnext₂ : t₂.next = t.next + 1 := by rw [ht₂, detach, newNode]
  have hloop : insertLoop compFunc t₂ (t₂.key t.next) t₂.next root (t₂.left root) = some (holeParent ctx) := by
    have hrep : Rep t₂ root s := h.sub.congr fun b hb => hsame₂ b (Nat.ne_of_lt (hmem b hb).2)
    have hroot : t₂.left root = addrOf s := (hsame₂ root (Nat.ne_of_lt hnext)).left.trans h.above
    rw [hroot, hctx_eq, hkey₂, hnext₂]
    exact hrep.insertLoop [] (fun b hb => Nat.ne_of_gt (Nat.lt_trans (by decide) (hmem b hb).1)) hfuel
  -- the memory in which the new node knows its parent
  obtain ⟨t₃, ht₃⟩ : ∃ t₃, t₃ = setParent t₂ t.next (holeParent ctx) := ⟨_, rfl⟩
  have hsame₃ : ∀ b, b ≠ t.next → SameAt t t₃ b := by
    intro b hb
    rw [ht₃]
    exact (hsame₂ b hb).trans ⟨rfl, rfl, rfl, rfl, rfl, update_of_ne hb _ _⟩
  have habove₃ : RepCtx t₃ nil ctx := by
    refine hctx.above.congr fun b hb => hsame₃ b ?_
    rcases hb with rfl | hb
    · exact Nat.ne_of_lt hnext
    · exact Nat.ne_of_lt ((hctx.range b).1 (mem_plug.2 (.inr hb))).2
  have hchosen : ∀ f ∈ ctx, Frame.Chosen (goesLeft compFunc key) f := by
    rw [hctx_eq]
    exact descend_chosen fun f hf => absurd hf List.not_mem_nil
  have hlink := attach_eq (z := t.next) habove₃ (fun b hb => hctx.root_lt (.inr hb)) hchosen
  refine ⟨setChild t₃ ctx t.next, ?_, ?_, ?_⟩
  · rw [treeInsertHelp, ← ht₂, hloop, Option.map_some, hkey₂, ← ht₃, ← hlink, ht₃]
    rfl
  · rw [(setChild_rest _ _ _).2.2, ht₃]
    exact hnext₂
  · refine hctx.leaf rfl hnext hsame₃ ?_ ?_ ?_ ?_ ?_ ?_
    · rw [ht₃]
      exact hkey₂
    · simp [ht₃, ht₂, setParent, detach, newNode]
    · simp [ht₃, ht₂, setParent, detach]
    · simp [ht₃, ht₂, setParent, detach]
    · simp [ht₃, setParent]
    · rw [ht₃]
      exact hnext₂

/-- **`rb_tree_add` adds a node** between those that the search for its key leaves to its left and to its
right. -/
theorem Holds.rbTreeAdd (h : Holds t es) (key : K) (info : V)
    (hsorted : es.Pairwise fun a b => goesLeft compFunc key a = true → goesLeft compFunc key b = true) :
    ∃ t' lo hi, rbTreeAdd compFunc t key info = some (t', t.next) ∧ es = lo ++ hi ∧
      Holds t' (lo ++ ⟨t.next, key, info⟩ :: hi) ∧ (∀ a ∈ lo, goesLeft compFunc key a = false) ∧
      ∀ a ∈ hi, goesLeft compFunc key a = true := by
  have hlength := h.length
  obtain ⟨hnext, s, hfocus, hblack, rfl⟩ := h
  have hdepth := s.depth_le_length
  obtain ⟨t₁, hhelp, hnext₁, hleaf⟩ := exists_treeInsertHelp hfocus hnext (by omega) compFunc key info
  have hplug := plug_descend (goesLeft compFunc key) [] s
  have htop : TopBlack (descend (goesLeft compFunc key) [] s) := by
    have hctx : Focus t (descend (goesLeft compFunc key) [] s) .nil := Focus.of_whole (hplug ▸ hfocus)
    have hroot : t.left root = addrOf s := hfocus.above
    exact hctx.above.topBlack (hroot ▸ hblack)
  have hsplit : (∀ a ∈ before (descend (goesLeft compFunc key) [] s), goesLeft compFunc key a = false) ∧
      ∀ a ∈ after (descend (goesLeft compFunc key) [] s), goesLeft compFunc key a = true :=
    descend_splits (by simp [before]) (by simp [after]) hsorted
  generalize descend (goesLeft compFunc key) [] s = ctx at *
  have hlist := congrArg BinTree.toList hplug
  rw [toList_plug] at hlist
  have hlen := length_le_plug ctx .nil
  rw [hplug, plug] at hlen
  have hfix : Fixing (setRed t₁ t.next true) t.next ctx.length
      (before ctx ++ ⟨t.next, key, info⟩ :: after ctx) := by
    refine ⟨ctx, .nil, ⟨t.next, key, info⟩, .nil, rfl, Nat.le_refl _, hleaf, htop, ?_⟩
    rw [toList_plug]
    simp
  have hfuel : ctx.length < t₁.next := by
    simp only [BinTree.toList_nil, List.length_nil] at hlen
    omega
  obtain ⟨t₂, x, hloop, hfix₂⟩ := hfix.fixLoop hfuel
  refine ⟨_, before ctx, after ctx, ?_, ?_, hfix₂.blacken, hsplit⟩
  · simp only [RedBlackTree.rbTreeAdd, hhelp, Option.bind_eq_bind, Option.bind_some, hloop]
    rfl
  · simpa [plug] using hlist.symm

end

end

end OmpSs.Mcxx.RedBlackTree
