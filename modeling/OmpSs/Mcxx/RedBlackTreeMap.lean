import OmpSs.Mcxx.RedBlackTreeInsert
import OmpSs.Lib.Interning
import Mathlib.Data.List.Nodup

/-!
# The red-black tree as a map

If `comp_func` compares in three ways, as its comment says (`red_black_tree.c:59`), and leaves the tree alone,
the keys of the tree increase: `rb_tree_query` finds the node of a key (`Valid.rbTreeQuery`), and
`rb_tree_add` adds a node for a key that is not there (`Valid.rbTreeAdd`).
-/

namespace OmpSs.Mcxx.RedBlackTree

open Lib Lib.RedBlack Function

section
variable {K V : Type*} {compFunc : K → K → Int} {t t' : RbTree K V} {es : List (Entry K V)}
  {s : BinTree (Entry K V)} {key q : K} {info : V} {fuel : Nat}

/-- The keys increase. -/
def Sorted (compFunc : K → K → Int) (es : List (Entry K V)) : Prop :=
  es.Pairwise fun a b => compFunc a.key b.key < 0

/-- The entry with the key `q`. -/
def lookup (compFunc : K → K → Int) (es : List (Entry K V)) (q : K) : Option (Entry K V) :=
  es.find? fun e => decide (compFunc e.key q = 0)

/-- The memory holds a tree with the entries `es`, whose keys increase. -/
structure Valid (compFunc : K → K → Int) (t : RbTree K V) (es : List (Entry K V)) : Prop where
  holds : Holds t es
  sorted : Sorted compFunc es

theorem valid_create [Inhabited K] [Inhabited V] : Valid compFunc (rbTreeCreate : RbTree K V) [] := by
  refine ⟨⟨Nat.lt_succ_self 1, .nil, ⟨rfl, trivial, List.nodup_nil, fun a => ?_, rfl, rfl⟩, rfl, rfl⟩,
    List.Pairwise.nil⟩
  simp only [plug, addrs_nil, List.not_mem_nil, rbTreeCreate, root, false_iff]
  omega

/-! ## Queries -/

/-- The memory has the keys and the links of the tree. -/
def Links (t : RbTree K V) : BinTree (Entry K V) → Prop
  | .nil => True
  | .node _ l a r =>
    (t.key a.addr = a.key ∧ t.left a.addr = addrOf l ∧ t.right a.addr = addrOf r) ∧ Links t l ∧ Links t r

theorem Rep.links {p : Nat} (h : Rep t p s) : Links t s := by
  induction s generalizing p with
  | nil => trivial
  | node c l a r ihl ihr => exact ⟨⟨h.1.key, h.1.left, h.1.right⟩, ihl h.2.1, ihr h.2.2⟩

/-- The keys that a query compares with its own. -/
def visited (compFunc : K → K → Int) (t : RbTree K V) (q : K) : Nat → Nat → List K
  | 0, _ => []
  | fuel + 1, x =>
    if x = nil then []
    else t.key x :: if compFunc (t.key x) q = 0 then []
      else visited compFunc t q fuel (if 0 < compFunc (t.key x) q then t.left x else t.right x)

/-- The keys of a subtree that a query compares with its own. -/
def way (compFunc : K → K → Int) (q : K) : BinTree (Entry K V) → List K
  | .nil => []
  | .node _ l a r => a.key :: if compFunc a.key q = 0 then []
      else if 0 < compFunc a.key q then way compFunc q l else way compFunc q r

/-- A query goes down the tree. -/
theorem Links.query (compFunc : K → K → Int) (q : K) (h : Links t s) (hnil : ∀ b ∈ addrs s, b ≠ nil)
    (hfuel : s.depth < fuel) :
    queryLoop compFunc t q fuel (addrOf s) = some ((s.find fun e => compFunc e.key q).map (·.addr)) ∧
      visited compFunc t q fuel (addrOf s) = way compFunc q s := by
  induction s generalizing fuel with
  | nil =>
    obtain ⟨fuel, rfl⟩ := Nat.exists_eq_succ_of_ne_zero (Nat.ne_of_gt hfuel)
    exact ⟨rfl, rfl⟩
  | node c l a r ihl ihr =>
    obtain ⟨⟨hkey, hleft, hright⟩, hl, hr⟩ := h
    obtain ⟨fuel, rfl⟩ := Nat.exists_eq_succ_of_ne_zero (Nat.ne_of_gt (Nat.zero_lt_of_lt hfuel))
    rw [addrs_node] at hnil
    simp only [BinTree.depth] at hfuel
    have hne : a.addr ≠ nil := hnil _ (by simp)
    rw [RedBlackTree.queryLoop, visited, addrOf, if_neg hne, if_neg hne, hkey, hleft, hright, BinTree.find, way]
    by_cases hzero : compFunc a.key q = 0
    · rw [if_pos hzero, if_pos hzero, if_pos hzero, if_pos hzero]
      exact ⟨rfl, rfl⟩
    · rw [if_neg hzero, if_neg hzero, if_neg hzero, if_neg hzero]
      by_cases hpos : 0 < compFunc a.key q
      · have hdepth : l.depth < fuel := by omega
        obtain ⟨hquery, hvisited⟩ := ihl hl (fun b hb => hnil b (by simp [hb])) hdepth
        rw [if_pos hpos, if_pos hpos, if_pos hpos, hvisited]
        exact ⟨hquery, rfl⟩
      · have hdepth : r.depth < fuel := by omega
        obtain ⟨hquery, hvisited⟩ := ihr hr (fun b hb => hnil b (by simp [hb])) hdepth
        rw [if_neg hpos, if_neg hpos, if_neg hpos, hvisited]
        exact ⟨hquery, rfl⟩

theorem Sorted.find (hc : ThreeWay compFunc) (hs : Sorted compFunc s.toList) (q : K) :
    s.find (fun e => compFunc e.key q) = lookup compFunc s.toList q := by
  refine BinTree.find_eq (List.Pairwise.imp (fun {a b} hab ha => ?_) hs)
  have h₁ := hc.swap a.key q
  have h₂ := hc.swap q a.key
  have h₃ := hc.swap b.key q
  have h₄ : compFunc q a.key ≤ 0 → compFunc q b.key < 0 := fun h => hc.lt_of_le_of_lt h hab
  omega

/-- The memory `t'` has the keys and the links of all nodes of `t`. -/
structure SameLinks (t t' : RbTree K V) : Prop where
  top : t'.left root = t.left root
  next : t.next ≤ t'.next
  node : ∀ b, root < b → b < t.next → t'.key b = t.key b ∧ t'.left b = t.left b ∧ t'.right b = t.right b

theorem SameLinks.refl (t : RbTree K V) : SameLinks t t := ⟨rfl, Nat.le_refl _, fun _ _ _ => ⟨rfl, rfl, rfl⟩⟩

theorem Links.of_same (h : Links t s) (hsame : SameLinks t t') (hrange : ∀ b ∈ addrs s, root < b ∧ b < t.next) :
    Links t' s := by
  induction s with
  | nil => trivial
  | node c l a r ihl ihr =>
    obtain ⟨⟨hkey, hleft, hright⟩, hl, hr⟩ := h
    rw [addrs_node] at hrange
    obtain ⟨hlow, hhigh⟩ := hrange a.addr (by simp)
    obtain ⟨hkey', hleft', hright'⟩ := hsame.node a.addr hlow hhigh
    exact ⟨⟨hkey'.trans hkey, hleft'.trans hleft, hright'.trans hright⟩,
      ihl hl fun b hb => hrange b (by simp [hb]), ihr hr fun b hb => hrange b (by simp [hb])⟩

/-- **A query finds the node of its key**, also while a node is added. -/
theorem Valid.query (h : Valid compFunc t es) (hc : ThreeWay compFunc) (hsame : SameLinks t t') (q : K) :
    rbTreeQuery compFunc t' q = some ((lookup compFunc es q).map (·.addr)) ∧
      visited compFunc t' q t'.next (t'.left root) = visited compFunc t q t.next (t.left root) := by
  have hlength := h.holds.length
  obtain ⟨⟨hnext, s, hfocus, -, rfl⟩, hsorted⟩ := h
  have hdepth := s.depth_le_length
  have hroot : t.left root = addrOf s := hfocus.above
  have hrange : ∀ b ∈ addrs s, root < b ∧ b < t.next := fun b hb => (hfocus.range b).1 hb
  have hnil : ∀ b ∈ addrs s, b ≠ nil := fun b hb => Nat.ne_of_gt (Nat.lt_trans (by decide) (hrange b hb).1)
  have hlinks := hfocus.sub.links
  have hfuel : s.depth < t.next := by
    simp only [root] at hnext
    omega
  obtain ⟨-, hvisited⟩ := hlinks.query compFunc q hnil hfuel
  obtain ⟨hquery, hvisited'⟩ := (hlinks.of_same hsame hrange).query compFunc q hnil
    (Nat.lt_of_lt_of_le hfuel hsame.next)
  rw [RedBlackTree.rbTreeQuery, hsame.top, hroot, hquery, hsorted.find hc, hvisited, hvisited']
  exact ⟨rfl, rfl⟩

/-! ## New keys -/

/-- What is found has the key that was looked for. -/
theorem key_of_lookup {e : Entry K V} (h : lookup compFunc es q = some e) : compFunc e.key q = 0 :=
  of_decide_eq_true (List.find?_some (p := fun e : Entry K V => decide (compFunc e.key q = 0)) h)

theorem Rep.mem {p : Nat} (h : Rep t p s) : ∀ e ∈ s.toList, t.info e.addr = e.info := by
  induction s generalizing p with
  | nil => exact fun e he => absurd he List.not_mem_nil
  | node c l a r ihl ihr =>
    obtain ⟨ha, hl, hr⟩ := h
    intro e he
    rcases List.mem_append.1 he with he | he
    · exact ihl hl e he
    · rcases List.mem_cons.1 he with rfl | he
      · exact ha.info
      · exact ihr hr e he

theorem Holds.info_eq (h : Holds t es) : ∀ e ∈ es, t.info e.addr = e.info := by
  obtain ⟨-, s, hfocus, -, rfl⟩ := h
  exact hfocus.sub.mem

/-- A key that is not there is not found to its left. -/
theorem key_lt_of_lookup {a : Entry K V} (hnone : lookup compFunc es key = none) (ha : a ∈ es)
    (hleft : goesLeft compFunc key a = false) : compFunc a.key key < 0 := by
  have hne : compFunc a.key key ≠ 0 := by
    intro h0
    have := List.find?_eq_none.1 hnone a ha
    simp [h0] at this
  have hpos : ¬ 0 < compFunc a.key key := of_decide_eq_false hleft
  omega

theorem sorted_insert {lo hi : List (Entry K V)} {x : Nat} (hc : ThreeWay compFunc)
    (hs : Sorted compFunc (lo ++ hi)) (hlo : ∀ a ∈ lo, compFunc a.key key < 0)
    (hhi : ∀ a ∈ hi, 0 < compFunc a.key key) : Sorted compFunc (lo ++ ⟨x, key, info⟩ :: hi) := by
  obtain ⟨h₁, h₂, h₃⟩ := List.pairwise_append.1 hs
  refine List.pairwise_append.2 ⟨h₁, List.pairwise_cons.2 ⟨fun a ha => (hc.swap a.key key).2 (hhi a ha), h₂⟩, ?_⟩
  intro a ha b hb
  rcases List.mem_cons.1 hb with rfl | hb
  · exact hlo a ha
  · exact h₃ a ha b hb

/-- **`rb_tree_add` adds a node** for a key that is not there and keeps the keys in order. -/
theorem Valid.rbTreeAdd (h : Valid compFunc t es) (hc : ThreeWay compFunc)
    (hnone : lookup compFunc es key = none) (info : V) :
    ∃ t' es', rbTreeAdd compFunc t key info = some (t', t.next) ∧ Valid compFunc t' es' ∧
      es'.Perm (⟨t.next, key, info⟩ :: es) := by
  have hmono : es.Pairwise fun a b => goesLeft compFunc key a = true → goesLeft compFunc key b = true := by
    refine List.Pairwise.imp (fun {a b} hab ha => ?_) h.sorted
    have h₁ := (hc.swap a.key key).2 (of_decide_eq_true ha)
    exact decide_eq_true ((hc.swap b.key key).1 (hc.lt_trans h₁ hab))
  obtain ⟨t', lo, hi, hadd, rfl, hholds, hlo, hhi⟩ := h.holds.rbTreeAdd key info hmono
  refine ⟨t', lo ++ ⟨t.next, key, info⟩ :: hi, hadd, ⟨hholds, ?_⟩, List.perm_middle⟩
  refine sorted_insert hc h.sorted (fun a ha => ?_) fun a ha => of_decide_eq_true (hhi a ha)
  exact key_lt_of_lookup hnone (List.mem_append_left _ ha) (hlo a ha)

end

end OmpSs.Mcxx.RedBlackTree
