import OmpSs.Lib.Run
import OmpSs.Mcxx.ConstOrder
import OmpSs.Mcxx.ConstPool

/-!
# Constants are unique

`const_value_compare_` compares a C string with elements by constants that it makes of the characters
(`cxx-cexpr.c:322-343`), and `const_value_get_integer` puts these into the tree that is being searched. The tree
may be rotated under the search, so that a constant which is there is missed and put in again.

Where a search makes constants only of characters that are in the tree (`Quiet`), the tree stays as it is, and
the same pointer is returned for two constants if and only if they are equal (`constValueReturnUnique_unique`).
-/

namespace OmpSs.Mcxx.ConstUnique

open OmpSs.Lib OmpSs.Mcxx.ConstOrder OmpSs.Mcxx.ConstPool OmpSs.Mcxx.RedBlackTree
open OmpSs.Mcxx.Cexpr (CValue)

/-! ## The comparison -/

section
variable {w : CValue}

/-- A comparison that makes no constants. -/
def plainCompare (v v2 : ConstValue w) (s : Pool (ConstValue w)) : Option (Int × Pool (ConstValue w)) :=
  some (constValueCompare v v2, s)

/-- `const_value_get_integer` of a character. No comparison with an integer makes constants (`internChar_eq`). -/
def internChar (c : UInt8) (s : Pool (ConstValue w)) : Option (Pool (ConstValue w)) :=
  (s.constValueReturnUnique plainCompare (charValue w c)).map (·.2)

/-- The loop over a C string and elements. Source: `cxx-cexpr.c:332-344`. -/
def compareCharsInPool : List UInt8 → List (ConstValue w) → Pool (ConstValue w) →
    Option (Int × Pool (ConstValue w))
  | c :: cs, v :: l, s => (internChar c s).bind fun s =>
    if compareChar c v ≠ 0 then some (compareChar c v, s) else compareCharsInPool cs l s
  | _, _, s => some (0, s)

mutual

/-- Source: `const_value_compare_` (`cxx-cexpr.c:179`). -/
def compareInPool : ConstValue w → ConstValue w → Pool (ConstValue w) → Option (Int × Pool (ConstValue w))
  | .integer sign num_bytes value, val2, s => some (compareInteger sign num_bytes value val2, s)
  | .address sign num_bytes addr, val2, s =>
    let k := compareFields (.address sign num_bytes addr) val2 0
    if k ≠ 0 then some (k, s)
    else match val2 with
      | .address _ _ addr2 => compareInPool addr addr2 s
      | _ => some (0, s)
  | .multi kind sign num_bytes m, val2, s =>
    let k := compareFields (.multi kind sign num_bytes m) val2 0
    if k ≠ 0 then some (k, s)
    else match val2 with
      | .multi _ _ _ m2 => compareMultivalInPool m m2 s
      | _ => some (0, s)

/-- Source: `const_value_compare_multival_` (`cxx-cexpr.c:277`). -/
def compareMultivalInPool : MultiValue w → MultiValue w → Pool (ConstValue w) →
    Option (Int × Pool (ConstValue w))
  | .cString c_str null_ended, m2, s =>
    let k := compareThen (MultiValue.cString (w := w) c_str null_ended).num_elements m2.num_elements 0
    if k ≠ 0 then some (k, s)
    else match m2 with
      | .cString c_str2 _ => some (compareThen (strcmp c_str.chars c_str2.chars) 0 0, s)
      | .elements l2 => compareCharsInPool (stringChars c_str null_ended) l2 s
  | .elements l, m2, s =>
    let k := compareThen (MultiValue.elements l).num_elements m2.num_elements 0
    if k ≠ 0 then some (k, s)
    else match m2 with
      | .cString c_str2 null_ended2 => compareElementCharsInPool l (stringChars c_str2 null_ended2) s
      | .elements l2 => compareElementsInPool l l2 s

/-- The loop over the elements. Source: `cxx-cexpr.c:309-319`. -/
def compareElementsInPool : List (ConstValue w) → List (ConstValue w) → Pool (ConstValue w) →
    Option (Int × Pool (ConstValue w))
  | v :: l, v2 :: l2, s => (compareInPool v v2 s).bind fun (k, s) =>
    if k ≠ 0 then some (k, s) else compareElementsInPool l l2 s
  | _, _, s => some (0, s)

/-- The loop over elements and a C string. Source: `cxx-cexpr.c:320-331`. -/
def compareElementCharsInPool : List (ConstValue w) → List UInt8 → Pool (ConstValue w) →
    Option (Int × Pool (ConstValue w))
  | v :: l, c :: cs, s => (internChar c s).bind fun s => (compareInPool v (charValue w c) s).bind fun (k, s) =>
    if k ≠ 0 then some (k, s) else compareElementCharsInPool l cs s
  | _, _, s => some (0, s)

end

/-! ## The constants it makes -/

/-- The characters of which the loop over a C string and elements makes constants. -/
def internedChars : List UInt8 → List (ConstValue w) → List UInt8
  | c :: cs, v :: l => c :: if compareChar c v ≠ 0 then [] else internedChars cs l
  | _, _ => []

/-- The same for elements and a C string. -/
def internedElementChars : List (ConstValue w) → List UInt8 → List UInt8
  | v :: l, c :: cs => c :: if constValueCompare v (charValue w c) ≠ 0 then [] else internedElementChars l cs
  | _, _ => []

mutual

/-- The characters of which a comparison makes constants. -/
def interned : ConstValue w → ConstValue w → List UInt8
  | .integer .., _ => []
  | .address sign num_bytes addr, val2 =>
    if compareFields (.address sign num_bytes addr) val2 0 ≠ 0 then []
    else match val2 with
      | .address _ _ addr2 => interned addr addr2
      | _ => []
  | .multi kind sign num_bytes m, val2 =>
    if compareFields (.multi kind sign num_bytes m) val2 0 ≠ 0 then []
    else match val2 with
      | .multi _ _ _ m2 => internedMultival m m2
      | _ => []

def internedMultival : MultiValue w → MultiValue w → List UInt8
  | .cString c_str null_ended, m2 =>
    if compareThen (MultiValue.cString (w := w) c_str null_ended).num_elements m2.num_elements 0 ≠ 0 then []
    else match m2 with
      | .cString .. => []
      | .elements l2 => internedChars (stringChars c_str null_ended) l2
  | .elements l, m2 =>
    if compareThen (MultiValue.elements l).num_elements m2.num_elements 0 ≠ 0 then []
    else match m2 with
      | .cString c_str2 null_ended2 => internedElementChars l (stringChars c_str2 null_ended2)
      | .elements l2 => internedElements l l2

def internedElements : List (ConstValue w) → List (ConstValue w) → List UInt8
  | v :: l, v2 :: l2 => interned v v2 ++ if constValueCompare v v2 ≠ 0 then [] else internedElements l l2
  | _, _ => []

end

/-! ## Comparisons that find their constants -/

variable {t t' : RbTree (ConstValue w) Nat} {s : Pool (ConstValue w)} {v v2 : ConstValue w} {a b k k2 : Int}
  {r : Option (Int × Pool (ConstValue w))} {N : Prop} {I : Pool (ConstValue w) → Prop}

/-- The result is `k`, and the pool is still one of `I`; without a result, `N` is the case. -/
def Yields (N : Prop) (I : Pool (ConstValue w) → Prop) (r : Option (Int × Pool (ConstValue w))) (k : Int) : Prop :=
  (r = none ∧ N) ∨ ∃ s', r = some (k, s') ∧ I s'

/-- The same for making the constant of a character, which has no result of its own. -/
def Keeps (N : Prop) (I : Pool (ConstValue w) → Prop) (c : UInt8) : Prop :=
  ∀ s, I s → (internChar c s = none ∧ N) ∨ ∃ s', internChar c s = some s' ∧ I s'

theorem Yields.pure (h : I s) (k : Int) : Yields N I (some (k, s)) k := .inr ⟨s, rfl, h⟩

/-- A comparison, and what follows if its result is zero. -/
theorem Yields.andThen {f : Pool (ConstValue w) → Option (Int × Pool (ConstValue w))} (h : Yields N I r k)
    (hf : k = 0 → ∀ s, I s → Yields N I (f s) k2) :
    Yields N I (r.bind fun (k, s) => if k ≠ 0 then some (k, s) else f s) (if k ≠ 0 then k else k2) := by
  rcases h with ⟨rfl, hn⟩ | ⟨s, rfl, hs⟩
  · exact .inl ⟨rfl, hn⟩
  · rw [Option.bind_some]
    dsimp only
    by_cases hk : k = 0
    · rw [if_neg (not_not.2 hk), if_neg (not_not.2 hk)]
      exact hf hk s hs
    · rw [if_pos hk, if_pos hk]
      exact .pure hs k

/-- First the constant of a character is made. -/
theorem Yields.intern {f : Pool (ConstValue w) → Option (Int × Pool (ConstValue w))} {c : UInt8}
    (hf : ∀ s, I s → Yields N I (f s) k) (hc : Keeps N I c) (hs : I s) : Yields N I ((internChar c s).bind f) k := by
  rcases hc s hs with ⟨hnone, hn⟩ | ⟨s', hrun, hs'⟩
  · exact .inl ⟨by rw [hnone, Option.bind_none], hn⟩
  · rw [hrun, Option.bind_some]
    exact hf s' hs'

theorem compareThen_of_ne (h : compareThen a b k ≠ 0) (hk : k ≠ 0 → k = k2) :
    compareThen a b k = compareThen a b k2 := by
  refine compareThen_congr fun hab => hk ?_
  rwa [hab, compareThen_self] at h

/-- The fields are compared first. -/
theorem Yields.fields (hs : I s) (h : compareFields v v2 0 = 0 → Yields N I r k) :
    Yields N I (if compareFields v v2 0 ≠ 0 then some (compareFields v v2 0, s) else r) (compareFields v v2 k) := by
  by_cases hzero : compareFields v v2 0 = 0
  · obtain ⟨hkind, hsign, hbytes, -⟩ := eq_of_compareFields hzero
    have heq : compareFields v v2 k = k := by
      rw [compareFields, hkind, hsign, hbytes, compareThen_self, compareThen_self, compareThen_self]
    rw [if_neg (not_not.2 hzero), heq]
    exact h hzero
  · have heq : compareFields v v2 0 = compareFields v v2 k :=
      compareThen_of_ne hzero fun h => compareThen_of_ne h fun h => compareThen_of_ne h fun h => absurd rfl h
    rw [if_pos hzero, ← heq]
    exact .pure hs _

/-- The numbers of elements are compared first. -/
theorem Yields.numElements (hs : I s) (h : a = b → Yields N I r k) :
    Yields N I (if compareThen a b 0 ≠ 0 then some (compareThen a b 0, s) else r) (compareThen a b k) := by
  by_cases hzero : compareThen a b 0 = 0
  · have hab := (compareThen_eq_zero_iff.1 hzero).1
    rw [if_neg (not_not.2 hzero), hab, compareThen_self]
    exact h hab
  · have heq : compareThen a b 0 = compareThen a b k := compareThen_of_ne hzero fun h => absurd rfl h
    rw [if_pos hzero, ← heq]
    exact .pure hs _

theorem compareInPool_address (sign : Bool) (num_bytes : Int) (addr v2 : ConstValue w) (s : Pool (ConstValue w)) :
    compareInPool (.address sign num_bytes addr) v2 s =
      let k := compareFields (.address sign num_bytes addr) v2 0
      if k ≠ 0 then some (k, s)
      else match v2 with
        | .address _ _ addr2 => compareInPool addr addr2 s
        | _ => some (0, s) := rfl

theorem compareInPool_multi (kind : MultiKind) (sign : Bool) (num_bytes : Int) (m : MultiValue w)
    (v2 : ConstValue w) (s : Pool (ConstValue w)) :
    compareInPool (.multi kind sign num_bytes m) v2 s =
      let k := compareFields (.multi kind sign num_bytes m) v2 0
      if k ≠ 0 then some (k, s)
      else match v2 with
        | .multi _ _ _ m2 => compareMultivalInPool m m2 s
        | _ => some (0, s) := rfl

theorem compareInPool_integer (v : ConstValue w) (sign : Bool) (num_bytes : Int) (value : BitVec w.bits)
    (s : Pool (ConstValue w)) : compareInPool v (.integer sign num_bytes value) s =
      plainCompare v (.integer sign num_bytes value) s := by
  cases v with
  | integer sign' num_bytes' value' => rfl
  | address sign' num_bytes' addr =>
    rw [compareInPool_address, plainCompare, constValueCompare_address]
    dsimp only
    split
    · rfl
    · next hzero => rw [not_not.1 hzero]
  | multi kind sign' num_bytes' m =>
    rw [compareInPool_multi, plainCompare, constValueCompare_multi]
    dsimp only
    split
    · rfl
    · next hzero => rw [not_not.1 hzero]

/-- The constant of a character is made as any other. -/
theorem internChar_eq (c : UInt8) (s : Pool (ConstValue w)) :
    internChar c s = (s.constValueReturnUnique compareInPool (charValue w c)).map (·.2) := by
  rw [internChar, charValue_eq, Pool.constValueReturnUnique_congr fun k s => (compareInPool_integer k _ _ _ s).symm]

theorem yields_compareCharsInPool {cs : List UInt8} {l : List (ConstValue w)}
    (h : ∀ c ∈ internedChars cs l, Keeps N I c) (hs : I s) :
    Yields N I (compareCharsInPool cs l s) (compareChars cs l) := by
  induction cs generalizing l s with
  | nil =>
    rw [compareCharsInPool, compareChars]
    · exact .pure hs 0
    · simp
    · simp
  | cons c cs ih =>
    cases l with
    | nil =>
      rw [compareCharsInPool, compareChars]
      · exact .pure hs 0
      · simp
      · simp
    | cons v l =>
      rw [internedChars] at h
      obtain ⟨hc, hcs⟩ := List.forall_mem_cons.1 h
      rw [compareCharsInPool]
      refine .intern (fun s₁ hs₁ => ?_) hc hs
      refine (Yields.pure hs₁ (compareChar c v)).andThen fun hzero s' hs' => ih ?_ hs'
      rwa [if_neg (not_not.2 hzero)] at hcs

/-- A comparison with `v` keeps what the constants it makes keep, and its result is that without a pool. -/
def Transparent (N : Prop) (I : Pool (ConstValue w) → Prop) (v : ConstValue w) : Prop :=
  ∀ v2 s, (∀ c ∈ interned v v2, Keeps N I c) → I s → Yields N I (compareInPool v v2 s) (constValueCompare v v2)

theorem yields_compareElementsInPool {l l2 : List (ConstValue w)} (hl : ∀ v ∈ l, Transparent N I v)
    (h : ∀ c ∈ internedElements l l2, Keeps N I c) (hs : I s) :
    Yields N I (compareElementsInPool l l2 s) (compareElements l l2) := by
  induction l generalizing l2 s with
  | nil =>
    rw [compareElementsInPool, compareElements]
    · exact .pure hs 0
    · simp
    · simp
  | cons v l ih =>
    obtain ⟨hv, hl⟩ := List.forall_mem_cons.1 hl
    cases l2 with
    | nil =>
      rw [compareElementsInPool, compareElements]
      · exact .pure hs 0
      · simp
      · simp
    | cons v2 l2 =>
      rw [internedElements] at h
      rw [compareElementsInPool, compareElements]
      refine (hv v2 s (fun c hc => h c (List.mem_append_left _ hc)) hs).andThen fun hzero s' hs' => ih hl ?_ hs'
      exact fun c hc => h c (List.mem_append_right _ (by rwa [if_neg (not_not.2 hzero)]))

theorem yields_compareElementCharsInPool {l : List (ConstValue w)} {cs : List UInt8}
    (h : ∀ c ∈ internedElementChars l cs, Keeps N I c) (hs : I s) :
    Yields N I (compareElementCharsInPool l cs s) (compareElements l (cs.map (charValue w))) := by
  induction l generalizing cs s with
  | nil =>
    rw [compareElementCharsInPool, compareElements]
    · exact .pure hs 0
    · simp
    · simp
  | cons v l ih =>
    cases cs with
    | nil =>
      rw [compareElementCharsInPool, List.map_nil, compareElements]
      · exact .pure hs 0
      · simp
      · simp
    | cons c cs =>
      rw [internedElementChars] at h
      obtain ⟨hc, hcs⟩ := List.forall_mem_cons.1 h
      rw [compareElementCharsInPool, List.map_cons, compareElements]
      refine .intern (fun s₁ hs₁ => ?_) hc hs
      have hplain : compareInPool v (charValue w c) s₁ = some (constValueCompare v (charValue w c), s₁) := by
        rw [charValue_eq]
        exact compareInPool_integer v _ _ _ s₁
      rw [hplain]
      refine (Yields.pure hs₁ (constValueCompare v (charValue w c))).andThen fun hzero s' hs' => ih ?_ hs'
      rwa [if_neg (not_not.2 hzero)] at hcs

theorem compareMultivalInPool_elements (l : List (ConstValue w)) (m2 : MultiValue w) (s : Pool (ConstValue w)) :
    compareMultivalInPool (.elements l) m2 s =
      let k := compareThen (MultiValue.elements l).num_elements m2.num_elements 0
      if k ≠ 0 then some (k, s)
      else match m2 with
        | .cString c_str2 null_ended2 => compareElementCharsInPool l (stringChars c_str2 null_ended2) s
        | .elements l2 => compareElementsInPool l l2 s := rfl

theorem compareMultivalInPool_cString (c_str : CString) (null_ended : Bool) (m2 : MultiValue w)
    (s : Pool (ConstValue w)) : compareMultivalInPool (.cString c_str null_ended) m2 s =
      let k := compareThen (MultiValue.cString (w := w) c_str null_ended).num_elements m2.num_elements 0
      if k ≠ 0 then some (k, s)
      else match m2 with
        | .cString c_str2 _ => some (compareThen (strcmp c_str.chars c_str2.chars) 0 0, s)
        | .elements l2 => compareCharsInPool (stringChars c_str null_ended) l2 s := rfl

theorem yields_compareMultivalInPool {m m2 : MultiValue w} (hm : ∀ v ∈ m.toList, Transparent N I v)
    (h : ∀ c ∈ internedMultival m m2, Keeps N I c) (hs : I s) :
    Yields N I (compareMultivalInPool m m2 s) (constValueCompareMultival m m2) := by
  cases m with
  | elements l =>
    rw [compareMultivalInPool_elements, constValueCompareMultival_elements]
    refine .numElements hs fun hnum => ?_
    have hzero : ¬ compareThen (MultiValue.elements l).num_elements m2.num_elements 0 ≠ 0 := by
      rw [hnum, compareThen_self]
      exact not_not.2 rfl
    cases m2 with
    | elements l2 =>
      rw [internedMultival, if_neg hzero] at h
      exact yields_compareElementsInPool hm h hs
    | cString c_str2 null_ended2 =>
      rw [internedMultival, if_neg hzero] at h
      exact yields_compareElementCharsInPool h hs
  | cString c_str null_ended =>
    rw [compareMultivalInPool_cString, constValueCompareMultival_cString]
    refine .numElements hs fun hnum => ?_
    have hzero : ¬ compareThen (MultiValue.cString (w := w) c_str null_ended).num_elements m2.num_elements 0 ≠ 0 := by
      rw [hnum, compareThen_self]
      exact not_not.2 rfl
    cases m2 with
    | elements l2 =>
      rw [internedMultival, if_neg hzero] at h
      exact yields_compareCharsInPool h hs
    | cString c_str2 null_ended2 => exact .pure hs _

theorem transparent_compareInPool (N : Prop) (I : Pool (ConstValue w) → Prop) (v : ConstValue w) : Transparent N I v := by
  induction v using ConstValue.induction with
  | integer sign num_bytes value => exact fun v2 s _ hs => .pure hs _
  | address sign num_bytes addr ih =>
    intro v2 s h hs
    rw [compareInPool_address, constValueCompare_address]
    refine .fields hs fun hzero => ?_
    cases v2 with
    | address sign2 num_bytes2 addr2 =>
      rw [interned, if_neg (not_not.2 hzero)] at h
      exact ih addr2 s h hs
    | integer sign2 num_bytes2 value2 => exact .pure hs 0
    | multi kind2 sign2 num_bytes2 m2 => exact .pure hs 0
  | multi kind sign num_bytes m ih =>
    intro v2 s h hs
    rw [compareInPool_multi, constValueCompare_multi]
    refine .fields hs fun hzero => ?_
    cases v2 with
    | multi kind2 sign2 num_bytes2 m2 =>
      rw [interned, if_neg (not_not.2 hzero)] at h
      exact yields_compareMultivalInPool ih h hs
    | integer sign2 num_bytes2 value2 => exact .pure hs 0
    | address sign2 num_bytes2 addr2 => exact .pure hs 0

/-- Whatever becomes of the tree, the result is that of the comparison without a pool. -/
theorem fst_compareInPool {s' : Pool (ConstValue w)} (h : compareInPool v v2 s = some (k, s')) :
    k = constValueCompare v v2 := by
  have hkeeps : ∀ c ∈ interned v v2, Keeps True (fun _ : Pool (ConstValue w) => True) c := fun c _ s _ => by
    cases hrun : internChar c s with
    | none => exact .inl ⟨rfl, trivial⟩
    | some s' => exact .inr ⟨s', rfl, trivial⟩
  rcases transparent_compareInPool True (fun _ => True) v v2 s hkeeps trivial with ⟨hnone, -⟩ | ⟨s'', hrun, -⟩
  · rw [h] at hnone
    cases hnone
  · rw [h] at hrun
    exact (Prod.mk.inj (Option.some.inj hrun)).1

/-! ## The pool -/

/-- What the sentinels of the tree have for a key. -/
instance : Inhabited (ConstValue w) := ⟨.integer false 0 0⟩

/-- The pool, and what the calls so far have been given and have returned. -/
structure Sys (w : CValue) where
  pool : Pool (ConstValue w)
  returned : List (ConstValue w × Nat)

/-- No constants yet. -/
def init (w : CValue) : Sys w := ⟨⟨rbTreeCreate, 0⟩, []⟩

/-- One call of `const_value_return_unique`. -/
def step (s : Sys w) (v : ConstValue w) : Option (Sys w) :=
  (s.pool.constValueReturnUnique compareInPool v).map fun (p, pool) => ⟨pool, s.returned ++ [(v, p)]⟩

/-- The search for the constant makes constants only of characters that are in the tree. -/
def Quiet (s : Sys w) (v : ConstValue w) : Prop :=
  ∀ k ∈ visited constValueCompare s.pool.tree v s.pool.tree.next (s.pool.tree.left root), ∀ c ∈ interned k v,
    (rbTreeQuery constValueCompare s.pool.tree (charValue w c)).join.isSome = true

instance (s : Sys w) (v : ConstValue w) : Decidable (Quiet s v) :=
  inferInstanceAs (Decidable (∀ k ∈ visited _ _ _ _ _, ∀ c ∈ interned k v, _ = true))

variable {es : List (Entry (ConstValue w) Nat)} {x : Sys w}

/-- A character whose constant is in the tree is found, also while a node is added. -/
theorem keeps_of_lookup {c : UInt8} (hv : Valid constValueCompare t es) (hsame : SameLinks t t') (n : Nat)
    (hc : (lookup constValueCompare es (charValue w c)).isSome = true) :
    Keeps False (fun s => s.tree = t' ∧ n ≤ s.next) c := by
  obtain ⟨e, he⟩ := Option.isSome_iff_exists.1 hc
  rintro s ⟨rfl, hn⟩
  have hplain : ∀ k, Pool.Leaves plainCompare constValueCompare s.tree k (charValue w c) :=
    fun k s hs => ⟨s, rfl, hs, Nat.le_refl _⟩
  obtain ⟨s', hrun, htree, hnext⟩ :=
    Pool.constValueReturnUnique_found hv (threeWay_constValueCompare w) he hsame fun k _ => hplain k
  exact .inr ⟨s', by rw [internChar, hrun, Option.map_some], htree, Nat.le_trans hn hnext⟩

theorem lookup_of_quiet (hv : Valid constValueCompare x.pool.tree es) (h : Quiet x v) {k : ConstValue w}
    (hk : k ∈ visited constValueCompare x.pool.tree v x.pool.tree.next (x.pool.tree.left root)) {c : UInt8}
    (hc : c ∈ interned k v) : (lookup constValueCompare es (charValue w c)).isSome = true := by
  have hquery := h k hk c hc
  rw [(hv.query (threeWay_constValueCompare w) (.refl _) (charValue w c)).1] at hquery
  simpa using hquery

/-- In a quiet search, every comparison leaves the tree alone. -/
theorem leaves_of_quiet (hv : Valid constValueCompare x.pool.tree es) (h : Quiet x v)
    (hsame : SameLinks x.pool.tree t) {k : ConstValue w}
    (hk : k ∈ visited constValueCompare x.pool.tree v x.pool.tree.next (x.pool.tree.left root)) :
    Pool.Leaves compareInPool constValueCompare t k v := by
  intro s hs
  have hkeeps : ∀ c ∈ interned k v, Keeps False (fun s' : Pool (ConstValue w) => s'.tree = t ∧ s.next ≤ s'.next) c :=
    fun c hc => keeps_of_lookup hv hsame s.next (lookup_of_quiet hv h hk hc)
  rcases transparent_compareInPool _ _ k v s hkeeps ⟨hs, Nat.le_refl _⟩ with ⟨-, hfalse⟩ | ⟨s', hrun, htree, hnext⟩
  · exact hfalse.elim
  · exact ⟨s', hrun, htree, hnext⟩

/-- The tree is a search tree, and its constants are those that have been returned. -/
structure Inv (x : Sys w) (es : List (Entry (ConstValue w) Nat)) : Prop where
  valid : Valid constValueCompare x.pool.tree es
  allocated : ∀ e ∈ es, e.info < x.pool.next
  interned : Interned constValueCompare (es.map fun e => (e.key, e.info)) x.returned

theorem inv_init (w : CValue) : Inv (init w) [] where
  valid := valid_create
  allocated := List.forall_mem_nil _
  interned := ⟨.nil, .nil, List.forall_mem_nil _⟩

theorem Inv.step (h : Inv x es) (hq : Quiet x v) : ∃ x' es', step x v = some x' ∧ Inv x' es' := by
  have hc := threeWay_constValueCompare w
  cases hlookup : lookup constValueCompare es v with
  | some e =>
    obtain ⟨pool, hrun, htree, hnext⟩ := Pool.constValueReturnUnique_found h.valid hc hlookup (.refl _)
      fun k hk => leaves_of_quiet h.valid hq (.refl _) hk
    have he := List.mem_of_find?_eq_some hlookup
    rw [h.valid.holds.info_eq e he] at hrun
    refine ⟨⟨pool, x.returned ++ [(v, e.info)]⟩, es, by rw [ConstUnique.step, hrun, Option.map_some], ?_, ?_, ?_⟩
    · exact htree ▸ h.valid
    · exact fun e' he' => Nat.lt_of_lt_of_le (h.allocated e' he') hnext
    · exact h.interned.again (List.mem_map.2 ⟨e, he, rfl⟩) (key_of_lookup hlookup)
  | none =>
    obtain ⟨pool, es', hrun, hvalid, hperm, hnext⟩ := Pool.constValueReturnUnique_new h.valid hc hlookup
      fun t hsame k hk => leaves_of_quiet h.valid hq hsame hk
    have hpairs := hperm.map fun e => (e.key, e.info)
    have hnodup : ((es'.map fun e => (e.key, e.info)).map Prod.snd).Nodup := by
      rw [(hpairs.map Prod.snd).nodup_iff]
      refine List.nodup_cons.2 ⟨fun hmem => ?_, h.interned.nodup⟩
      obtain ⟨p, hp, heq⟩ := List.mem_map.1 hmem
      obtain ⟨e, he, rfl⟩ := List.mem_map.1 hp
      exact Nat.ne_of_lt (h.allocated e he) heq
    have hdistinct : (es'.map fun e => (e.key, e.info)).Pairwise fun e f => constValueCompare e.1 f.1 ≠ 0 :=
      List.pairwise_map.2 (hvalid.sorted.imp fun hlt => Int.ne_of_lt hlt)
    refine ⟨⟨pool, x.returned ++ [(v, x.pool.next)]⟩, es', by rw [ConstUnique.step, hrun, Option.map_some],
      hvalid, fun e he => ?_, ?_⟩
    · rcases List.mem_cons.1 (hperm.mem_iff.1 he) with rfl | he
      · exact hnext
      · exact Nat.lt_trans (h.allocated e he) hnext
    · have hextend := h.interned.extend (fun p hp => hpairs.mem_iff.2 (List.mem_cons_of_mem _ hp)) hdistinct hnodup
      exact hextend.again (hpairs.mem_iff.2 List.mem_cons_self) (hc.self v)

theorem exists_inv (h : Reach step Quiet (init w) x) : ∃ es, Inv x es := by
  refine h.invariant (I := fun x => ∃ es, Inv x es) ⟨[], inv_init w⟩ ?_
  rintro x v x' ⟨es, hinv⟩ hq hstep
  obtain ⟨x'', es', hstep', hinv'⟩ := hinv.step hq
  obtain rfl := Option.some.inj (hstep.symm.trans hstep')
  exact ⟨es', hinv'⟩

/-- The result of the comparison is a strict total order up to equality of the elements. Where every search makes
constants only of characters that are in the tree, every call returns, and two calls return the same pointer if
and only if they have been given equal constants. -/
theorem constValueReturnUnique_unique (w : CValue) :
    (∀ (v v2 : ConstValue w) s k s', compareInPool v v2 s = some (k, s') → k = constValueCompare v v2) ∧
    (∀ v v2 : ConstValue w, constValueCompare v v2 < 0 ↔ 0 < constValueCompare v2 v) ∧
    (∀ u v v2 : ConstValue w, constValueCompare u v < 0 → constValueCompare v v2 < 0 → constValueCompare u v2 < 0) ∧
    (∀ v v2 : ConstValue w, constValueCompare v v2 = 0 ↔ Same v v2) ∧
    ∀ x, Reach step Quiet (init w) x →
      (∀ v, Quiet x v → (step x v).isSome = true) ∧
      ∀ r ∈ x.returned, ∀ t ∈ x.returned, r.2 = t.2 ↔ Same r.1 t.1 := by
  have hc := threeWay_constValueCompare w
  refine ⟨fun _ _ _ _ _ => fst_compareInPool, fun v v2 => hc.swap v2 v, fun _ _ _ => hc.lt_trans,
    fun _ _ => constValueCompare_eq_zero_iff, fun x hx => ?_⟩
  obtain ⟨es, hinv⟩ := exists_inv hx
  refine ⟨fun v hq => ?_, fun r hr t ht => ?_⟩
  · obtain ⟨x', es', hstep, -⟩ := hinv.step hq
    rw [hstep]
    rfl
  · rw [hinv.interned.eq_iff hc hr ht, constValueCompare_eq_zero_iff]

end

/-- The characters `a` and `b`, then `"ab"` by its elements and by its characters, and `"ba"`. -/
theorem constValueReturnUnique_unique_string : ∃ x, Reach step Quiet (init .int64) x ∧
    x.returned.map Prod.snd = [0, 1, 2, 2, 6] ∧ ∀ r ∈ x.returned, ∀ t ∈ x.returned, r.2 = t.2 ↔ Same r.1 t.1 := by
  let char := charValue .int64
  obtain ⟨x, hreach, hx⟩ := exists_reach_of_guarded_run step Quiet (init .int64)
    [char 97, char 98, .multi .string false 0 (.elements [char 97, char 98]),
      .multi .string false 0 (.cString ⟨[97, 98], by decide⟩ false),
      .multi .string false 0 (.cString ⟨[98, 97], by decide⟩ false)]
    (fun x => x.returned.map Prod.snd = [0, 1, 2, 2, 6]) (by decide +kernel)
  exact ⟨x, hreach, of_decide_eq_true hx, ((constValueReturnUnique_unique .int64).2.2.2.2 x hreach).2⟩

/-- The search for `"ab"` by its elements makes a constant of the `c` of `"ac"`. This rotates the C string `"ab"`
out of its way, which is there and is missed. -/
theorem constValueReturnUnique_missed :
    let char := charValue .int64
    let elements : List UInt8 → ConstValue .int64 := fun cs => .multi .string false 0 (.elements (cs.map char))
    ∃ x, run step (init .int64)
        [char 98, elements [98, 98], .multi .string false 0 (.cString ⟨[98, 97], by decide⟩ false),
          .multi .string false 0 (.cString ⟨[97, 99], by decide⟩ false),
          .multi .string false 0 (.cString ⟨[97, 98], by decide⟩ false), char 97, elements [97, 98]] = some x ∧
      ∃ r ∈ x.returned, ∃ t ∈ x.returned, Same r.1 t.1 ∧ r.2 ≠ t.2 := by
  intro char elements
  refine Exists.imp (fun x hx => ⟨hx.1, ?_⟩) ((Option.any_eq_true (fun x : Sys .int64 => x.returned.any fun r =>
    x.returned.any fun t => decide (constValueCompare r.1 t.1 = 0 ∧ r.2 ≠ t.2)) _).1 (by decide +kernel))
  obtain ⟨r, hr, hx⟩ := List.any_eq_true.1 hx.2
  obtain ⟨t, ht, hx⟩ := List.any_eq_true.1 hx
  obtain ⟨hsame, hne⟩ := of_decide_eq_true hx
  exact ⟨r, hr, t, ht, constValueCompare_eq_zero_iff.1 hsame, hne⟩

end OmpSs.Mcxx.ConstUnique
