import OmpSs.Lib.CString
import OmpSs.Lib.Interning
import OmpSs.Mcxx.Cexpr

/-!
# The order of constants

The front end keeps every constant once, in a search tree ordered by `const_value_compare_`. A constant with
several values is compared element by element; a string has its elements as constants, or as the characters of
a C string, and the two representations are compared with each other. The comparison is that of the lists of
integers which `code` writes a constant as (`lex_code`), a string by its elements in both representations;
so it is an order (`threeWay_constValueCompare`), and zero for constants that have the same elements
(`constValueCompare_eq_zero_iff`). What the comparison does to the tree it is called by is left to `ConstUnique`.
Source: `cxx-cexpr.c:179-350`.
-/

namespace OmpSs.Mcxx.ConstOrder

open OmpSs.Lib OmpSs.Mcxx.Cexpr

/-! ## Constants -/

/-- The kinds of constants that have several values and no struct type. -/
inductive MultiKind
  | complex
  | array
  | vector
  | string
  | range
deriving DecidableEq

/-- The value of the enumerator. Source: `const_value_kind_t` (`cxx-cexpr.c:69`). -/
def MultiKind.toInt : MultiKind → Int
  | .complex => 6
  | .array => 7
  | .vector => 9
  | .string => 10
  | .range => 11

mutual

/-- Source: `struct const_value_tag` (`cxx-cexpr.c:124`). -/
inductive ConstValue (w : CValue)
  | integer (sign : Bool) (num_bytes : Int) (value : BitVec w.bits)
  | address (sign : Bool) (num_bytes : Int) (addr : ConstValue w)
  | multi (kind : MultiKind) (sign : Bool) (num_bytes : Int) (m : MultiValue w)

/-- The elements, or the characters of a string without null characters in it, with or without the null at its
end as an element. Source: `const_multi_value_t` (`cxx-cexpr.c:97`). -/
inductive MultiValue (w : CValue)
  | elements (elements : List (ConstValue w))
  | cString (c_str : CString) (null_ended : Bool)

end

section
variable {w : CValue}

def ConstValue.kind : ConstValue w → Int
  | .integer .. => 1
  | .address .. => 14
  | .multi kind .. => kind.toInt

def ConstValue.sign : ConstValue w → Bool
  | .integer sign .. => sign
  | .address sign .. => sign
  | .multi _ sign .. => sign

def ConstValue.num_bytes : ConstValue w → Int
  | .integer _ num_bytes _ => num_bytes
  | .address _ num_bytes _ => num_bytes
  | .multi _ _ num_bytes _ => num_bytes

def MultiValue.num_elements : MultiValue w → Int
  | .elements l => l.length
  | .cString c_str null_ended => c_str.strlen + (if null_ended then 1 else 0)

/-- Source: `const_value_get_integer` (`cxx-cexpr.c:418`). -/
def constValueGetInteger (value : BitVec w.bits) (num_bytes : Nat) (sign : Bool) : ConstValue w :=
  .integer sign num_bytes
    (if sign = false ∧ num_bytes < w.sizeof then value &&& ~~~(BitVec.allOnes w.bits <<< (8 * num_bytes)) else value)

/-- The constant of a character, which is converted from the signed type `char` to `cvalue_uint_t`. -/
def charValue (w : CValue) (c : UInt8) : ConstValue w := constValueGetInteger (c.toBitVec.signExtend w.bits) 1 false

/-- Source: `multival_get_element_num` (`cxx-cexpr.c:534`). -/
def multivalGetElementNum (m : MultiValue w) (element : Nat) : Option (ConstValue w) :=
  match m with
  | .elements l => l[element]?
  | .cString c_str _ =>
    if m.num_elements ≤ element then none
    else if c_str.strlen = m.num_elements then c_str.chars[element]?.map (charValue w)
    else if c_str.strlen + 1 = m.num_elements then
      if element = c_str.strlen then some (constValueGetInteger 0 1 false)
      else c_str.chars[element]?.map (charValue w)
    else none

/-! ## The comparison -/

/-- `if (a != b) return a > b ? 1 : -1;`, and what follows. -/
def compareThen (a b k : Int) : Int := if a ≠ b then (if a > b then 1 else -1) else k

/-- The field `char sign : 1`, of a signed type. -/
def signField (sign : Bool) : Int := if sign then -1 else 0

/-- The fields that all kinds have. Source: `cxx-cexpr.c:190-195`. -/
def compareFields (val1 val2 : ConstValue w) (k : Int) : Int :=
  compareThen val1.kind val2.kind
    (compareThen (signField val1.sign) (signField val2.sign) (compareThen val1.num_bytes val2.num_bytes k))

/-- The number compared for an integer: its word read by its sign. -/
def integerKey (sign : Bool) (value : BitVec w.bits) : Int := if sign then value.toInt else value.toNat

/-- `const_value_compare_` for an integer as its first argument. Source: `cxx-cexpr.c:200-213`. -/
def compareInteger (sign : Bool) (num_bytes : Int) (value : BitVec w.bits) (val2 : ConstValue w) : Int :=
  compareFields (.integer sign num_bytes value) val2
    (match val2 with
    | .integer _ _ value2 => compareThen (integerKey sign value) (integerKey sign value2) 0
    | _ => 0)

/-- A character of a C string against a constant. -/
def compareChar (c : UInt8) (val2 : ConstValue w) : Int :=
  match charValue w c with
  | .integer sign num_bytes value => compareInteger sign num_bytes value val2
  | _ => 0

/-- The difference of the first characters that differ. -/
def strcmp : List UInt8 → List UInt8 → Int
  | [], [] => 0
  | [], d :: _ => 0 - d.toNat
  | c :: _, [] => c.toNat
  | c :: cs, d :: ds => if c = d then strcmp cs ds else c.toNat - d.toNat

/-- The characters that are elements. -/
def stringChars (c_str : CString) (null_ended : Bool) : List UInt8 := c_str.chars ++ (if null_ended then [0] else [])

/-- The loop over the elements of a string in the C representation and of one with constants. Source:
`cxx-cexpr.c:332-344`. -/
def compareChars : List UInt8 → List (ConstValue w) → Int
  | c :: cs, v :: l =>
    let k := compareChar c v
    if k ≠ 0 then k else compareChars cs l
  | _, _ => 0

mutual

/-- Source: `const_value_compare_` (`cxx-cexpr.c:179`); the same pointer is the same constant, for which the
result is zero too. -/
def constValueCompare : ConstValue w → ConstValue w → Int
  | .integer sign num_bytes value, val2 => compareInteger sign num_bytes value val2
  | .address sign num_bytes addr, val2 =>
    compareFields (.address sign num_bytes addr) val2
      (match val2 with
      | .address _ _ addr2 => constValueCompare addr addr2
      | _ => 0)
  | .multi kind sign num_bytes m, val2 =>
    compareFields (.multi kind sign num_bytes m) val2
      (match val2 with
      | .multi _ _ _ m2 => constValueCompareMultival m m2
      | _ => 0)

/-- Source: `const_value_compare_multival_` (`cxx-cexpr.c:277`). -/
def constValueCompareMultival : MultiValue w → MultiValue w → Int
  | .cString c_str null_ended, m2 =>
    compareThen (MultiValue.cString (w := w) c_str null_ended).num_elements m2.num_elements
      (match m2 with
      | .cString c_str2 _ => compareThen (strcmp c_str.chars c_str2.chars) 0 0
      | .elements l2 => compareChars (stringChars c_str null_ended) l2)
  | .elements l, m2 =>
    compareThen (MultiValue.elements l).num_elements m2.num_elements
      (match m2 with
      | .cString c_str2 null_ended2 => compareElements l ((stringChars c_str2 null_ended2).map (charValue w))
      | .elements l2 => compareElements l l2)

/-- The loop over the elements. Source: `cxx-cexpr.c:309-329`. -/
def compareElements : List (ConstValue w) → List (ConstValue w) → Int
  | v :: l, v2 :: l2 =>
    let k := constValueCompare v v2
    if k ≠ 0 then k else compareElements l l2
  | _, _ => 0

end

/-! ## The four loops -/

/-- The elements in either representation. -/
def MultiValue.toList : MultiValue w → List (ConstValue w)
  | .elements l => l
  | .cString c_str null_ended => (stringChars c_str null_ended).map (charValue w)

variable {m m2 : MultiValue w} {v v2 : ConstValue w} {a b k k2 : Int}

theorem charValue_eq (w : CValue) (c : UInt8) :
    charValue w c = .integer false 1 (BitVec.ofNat w.bits c.toNat) := by
  have hsize : 1 < w.sizeof := by cases w <;> decide
  have hbits : 8 < w.bits := Nat.lt_of_lt_of_le (by decide : 8 < 8 * 2) (Nat.mul_le_mul_left 8 hsize)
  have hvalue : c.toBitVec.signExtend w.bits &&& ~~~(BitVec.allOnes w.bits <<< 8) = BitVec.ofNat w.bits c.toNat := by
    apply BitVec.eq_of_getLsbD_eq
    intro i hi
    rw [BitVec.getLsbD_and, BitVec.getLsbD_not, BitVec.getLsbD_shiftLeft, BitVec.getLsbD_signExtend,
      BitVec.getLsbD_allOnes, BitVec.getLsbD_ofNat]
    rcases Nat.lt_or_ge i 8 with h8 | h8
    · have hbit : c.toBitVec.getLsbD i = c.toNat.testBit i := rfl
      simpa [hi, h8] using hbit
    · have hzero : c.toNat.testBit i = false :=
        Nat.testBit_lt_two_pow (Nat.lt_of_lt_of_le c.toNat_lt (Nat.pow_le_pow_right (by decide) h8))
      have hlow : i - 8 < w.bits := Nat.lt_of_le_of_lt (Nat.sub_le i 8) hi
      simp [hi, Nat.not_lt.2 h8, hzero, hlow]
  rw [charValue, constValueGetInteger, if_pos ⟨rfl, hsize⟩, hvalue]
  rfl

theorem compareChar_eq (c : UInt8) (v : ConstValue w) : compareChar c v = constValueCompare (charValue w c) v := by
  rw [compareChar, charValue_eq, constValueCompare]

theorem compareChars_eq (cs : List UInt8) (l : List (ConstValue w)) :
    compareChars cs l = compareElements (cs.map (charValue w)) l := by
  induction cs generalizing l with
  | nil => rw [compareChars, List.map_nil, compareElements] <;> simp
  | cons c cs ih =>
    cases l with
    | nil => rw [compareChars, List.map_cons, compareElements] <;> simp
    | cons v l => rw [compareChars, List.map_cons, compareElements, compareChar_eq, ih]

theorem length_stringChars (c_str : CString) (null_ended : Bool) : ((stringChars c_str null_ended).length : Int) =
    c_str.strlen + (if null_ended then 1 else 0) := by
  rw [stringChars, List.length_append]
  cases null_ended <;> rfl

theorem num_elements_eq (m : MultiValue w) : m.num_elements = m.toList.length := by
  cases m with
  | elements l => rfl
  | cString c_str null_ended =>
    rw [MultiValue.toList, List.length_map, length_stringChars]
    rfl

@[simp] theorem compareThen_self : compareThen a a k = k := if_neg (not_not.2 rfl)

theorem compareThen_of_lt (h : a < b) : compareThen a b k = -1 := by
  rw [compareThen, if_pos (Int.ne_of_lt h), if_neg (Int.not_lt.2 (Int.le_of_lt h))]

theorem compareThen_of_gt (h : b < a) : compareThen a b k = 1 := by
  rw [compareThen, if_pos (Int.ne_of_gt h), if_pos h]

theorem compareThen_congr (h : a = b → k = k2) : compareThen a b k = compareThen a b k2 := by
  unfold compareThen
  split
  · rfl
  · next hab => exact h (not_not.1 hab)

/-- Two characters, as unsigned ones. -/
theorem constValueCompare_charValue (w : CValue) (c d : UInt8) :
    constValueCompare (charValue w c) (charValue w d) = compareThen c.toNat d.toNat 0 := by
  have hkey : ∀ c : UInt8, integerKey false (BitVec.ofNat w.bits c.toNat) = c.toNat := by
    intro c
    have hlt : c.toNat < 2 ^ w.bits :=
      Nat.lt_of_lt_of_le c.toNat_lt (Nat.pow_le_pow_right (by decide) (by cases w <;> decide))
    rw [integerKey, if_neg Bool.false_ne_true, BitVec.toNat_ofNat, Nat.mod_eq_of_lt hlt]
  rw [charValue_eq, charValue_eq, constValueCompare, compareInteger, compareFields]
  simp only [ConstValue.kind, ConstValue.sign, ConstValue.num_bytes, compareThen_self, hkey]

theorem compareElements_cons {l l2 : List (ConstValue w)} (h : constValueCompare v v2 = compareThen a b 0) :
    compareElements (v :: l) (v2 :: l2) = compareThen a b (compareElements l l2) := by
  rw [compareElements, h]
  rcases Int.lt_trichotomy a b with hab | rfl | hab
  · rw [compareThen_of_lt hab, compareThen_of_lt hab]
    rfl
  · rw [compareThen_self, compareThen_self]
    rfl
  · rw [compareThen_of_gt hab, compareThen_of_gt hab]
    rfl

theorem natCast_toNat_pos {c : UInt8} (h : c ≠ 0) : (0 : Int) < c.toNat := by
  have : c.toNat ≠ 0 := fun h0 => h (UInt8.toNat_inj.1 h0)
  omega

/-- The characters up to the null that ends both strings decide, as the elements do. -/
theorem compareThen_strcmp (w : CValue) : (cs ds : List UInt8) → (hc : 0 ∉ cs) → (hd : 0 ∉ ds) → (e f : Bool) →
    (cs ++ if e then [0] else []).length = (ds ++ if f then [0] else []).length →
    compareThen (strcmp cs ds) 0 0 =
      compareElements ((cs ++ if e then [0] else []).map (charValue w))
        ((ds ++ if f then [0] else []).map (charValue w))
  | [], [], _, _, e, f, h => by
    cases e <;> cases f
    · rfl
    · cases h
    · cases h
    · change compareThen 0 0 0 = compareElements [charValue w 0] [charValue w 0]
      rw [compareElements_cons (constValueCompare_charValue w _ _), compareThen_self, compareThen_self]
      rfl
  | [], d :: ds, _, hd, e, f, h => by
    cases e with
    | false => simp at h
    | true =>
      have hpos : (0 : Int) < d.toNat := natCast_toNat_pos fun h0 => hd (h0 ▸ List.mem_cons_self)
      rw [List.nil_append, List.cons_append]
      change compareThen (0 - (d.toNat : Int)) 0 0 = compareElements (charValue w 0 :: _) (charValue w d :: _)
      rw [compareElements_cons (constValueCompare_charValue w _ _), compareThen_of_lt (by omega)]
      exact (compareThen_of_lt hpos).symm
  | c :: cs, [], hc, _, e, f, h => by
    cases f with
    | false => simp at h
    | true =>
      have hpos : (0 : Int) < c.toNat := natCast_toNat_pos fun h0 => hc (h0 ▸ List.mem_cons_self)
      rw [List.nil_append, List.cons_append]
      change compareThen (c.toNat : Int) 0 0 = compareElements (charValue w c :: _) (charValue w 0 :: _)
      rw [compareElements_cons (constValueCompare_charValue w _ _), compareThen_of_gt hpos]
      exact (compareThen_of_gt hpos).symm
  | c :: cs, d :: ds, hc, hd, e, f, h => by
    rw [List.mem_cons, not_or] at hc hd
    rw [List.cons_append, List.cons_append, List.map_cons, List.map_cons,
      compareElements_cons (constValueCompare_charValue w _ _), strcmp]
    split
    · next heq =>
      subst heq
      rw [compareThen_self]
      exact compareThen_strcmp w cs ds hc.2 hd.2 e f (Nat.succ.inj h)
    · next hne =>
      have hne' : c.toNat ≠ d.toNat := fun h => hne (UInt8.toNat_inj.1 h)
      rcases Nat.lt_or_gt_of_ne hne' with hlt | hlt
      · rw [compareThen_of_lt (by omega), compareThen_of_lt (by omega)]
      · rw [compareThen_of_gt (by omega), compareThen_of_gt (by omega)]

/-- The four loops are one loop over the elements. -/
theorem constValueCompareMultival_eq (m m2 : MultiValue w) : constValueCompareMultival m m2 =
    compareThen m.num_elements m2.num_elements (compareElements m.toList m2.toList) := by
  cases m with
  | elements l => cases m2 <;> rw [constValueCompareMultival] <;> rfl
  | cString c_str null_ended =>
    cases m2 with
    | elements l2 =>
      rw [constValueCompareMultival, compareChars_eq]
      rfl
    | cString c_str2 null_ended2 =>
      rw [constValueCompareMultival]
      refine compareThen_congr fun hnum => ?_
      refine compareThen_strcmp w _ _ c_str.ne_zero c_str2.ne_zero null_ended null_ended2 ?_
      rw [num_elements_eq, num_elements_eq, MultiValue.toList, MultiValue.toList, List.length_map,
        List.length_map] at hnum
      exact Int.ofNat.inj hnum

/-! ## The order -/

mutual

/-- A constant as a list of integers, in which it ends where its own numbers say. -/
def code : ConstValue w → List Int
  | .integer sign num_bytes value => [1, signField sign, num_bytes, integerKey sign value]
  | .address sign num_bytes addr => 14 :: signField sign :: num_bytes :: code addr
  | .multi kind sign num_bytes m => kind.toInt :: signField sign :: num_bytes :: codeMultival m

def codeMultival : MultiValue w → List Int
  | .elements l => l.length :: codeElements l
  | .cString c_str null_ended => (stringChars c_str null_ended).length ::
      (stringChars c_str null_ended).flatMap fun c => [1, signField false, 1, c.toNat]

def codeElements : List (ConstValue w) → List Int
  | [] => []
  | v :: l => code v ++ codeElements l

end

mutual

/-- Induction over constants, a string by the elements it has. -/
theorem ConstValue.induction {P : ConstValue w → Prop}
    (integer : ∀ sign num_bytes value, P (.integer sign num_bytes value))
    (address : ∀ sign num_bytes addr, P addr → P (.address sign num_bytes addr))
    (multi : ∀ kind sign num_bytes m, (∀ v ∈ m.toList, P v) → P (.multi kind sign num_bytes m)) :
    (v : ConstValue w) → P v
  | .integer _ _ _ => integer _ _ _
  | .address _ _ addr => address _ _ _ (ConstValue.induction integer address multi addr)
  | .multi _ _ _ m => multi _ _ _ _ (MultiValue.induction integer address multi m)

theorem MultiValue.induction {P : ConstValue w → Prop}
    (integer : ∀ sign num_bytes value, P (.integer sign num_bytes value))
    (address : ∀ sign num_bytes addr, P addr → P (.address sign num_bytes addr))
    (multi : ∀ kind sign num_bytes m, (∀ v ∈ m.toList, P v) → P (.multi kind sign num_bytes m)) :
    (m : MultiValue w) → ∀ v ∈ m.toList, P v
  | .elements l => elements_induction integer address multi l
  | .cString _ _ => fun v hv => by
    obtain ⟨c, -, rfl⟩ := List.mem_map.1 hv
    rw [charValue_eq]
    exact integer _ _ _

theorem elements_induction {P : ConstValue w → Prop}
    (integer : ∀ sign num_bytes value, P (.integer sign num_bytes value))
    (address : ∀ sign num_bytes addr, P addr → P (.address sign num_bytes addr))
    (multi : ∀ kind sign num_bytes m, (∀ v ∈ m.toList, P v) → P (.multi kind sign num_bytes m)) :
    (l : List (ConstValue w)) → ∀ v ∈ l, P v
  | [] => List.forall_mem_nil _
  | v :: l => List.forall_mem_cons.2
      ⟨ConstValue.induction integer address multi v, elements_induction integer address multi l⟩

end

theorem code_charValue (w : CValue) (c : UInt8) : code (charValue w c) = [1, signField false, 1, c.toNat] := by
  have hlt : c.toNat < 2 ^ w.bits :=
    Nat.lt_of_lt_of_le c.toNat_lt (Nat.pow_le_pow_right (by decide) (by cases w <;> decide))
  rw [charValue_eq, code, integerKey, if_neg Bool.false_ne_true, BitVec.toNat_ofNat, Nat.mod_eq_of_lt hlt]

theorem codeElements_eq (l : List (ConstValue w)) : codeElements l = l.flatMap code := by
  induction l with
  | nil => rw [codeElements, List.flatMap_nil]
  | cons v l ih => rw [codeElements, List.flatMap_cons, ih]

theorem codeMultival_eq (m : MultiValue w) : codeMultival m = m.num_elements :: m.toList.flatMap code := by
  rw [num_elements_eq]
  cases m with
  | elements l => rw [codeMultival, codeElements_eq, MultiValue.toList]
  | cString c_str null_ended =>
    rw [codeMultival, MultiValue.toList, List.length_map, List.flatMap_map]
    simp only [code_charValue]

/-- What follows the fields that all kinds have. -/
def body : ConstValue w → List Int
  | .integer sign _ value => [integerKey sign value]
  | .address _ _ addr => code addr
  | .multi _ _ _ m => codeMultival m

theorem code_eq (v : ConstValue w) : code v = v.kind :: signField v.sign :: v.num_bytes :: body v := by
  cases v <;> rw [code] <;> rfl

/-- The order of lists of integers. -/
abbrev lex : List Int → List Int → Ordering := List.compareLex compare

theorem compare_self (a : Int) : compare a a = .eq := Std.ReflCmp.compare_self

theorem compare_compareThen : compare (compareThen a b k) 0 = (compare a b).then (compare k 0) := by
  rcases Int.lt_trichotomy a b with hab | rfl | hab
  · rw [compareThen_of_lt hab, Int.compare_eq_lt.2 hab]
    rfl
  · rw [compareThen_self, compare_self]
    rfl
  · rw [compareThen_of_gt hab, Int.compare_eq_gt.2 hab]
    rfl

/-- The comparison is that of the lists, whatever follows them. -/
def Coded (v : ConstValue w) : Prop := ∀ v2 s t,
  lex (code v ++ s) (code v2 ++ t) = (compare (constValueCompare v v2) 0).then (lex s t)

/-- Where the keys differ, what follows does not matter. -/
theorem compare_then_congr {o o2 : Ordering} (h : a = b → o = o2) : (compare a b).then o = (compare a b).then o2 := by
  rcases Int.lt_trichotomy a b with hab | rfl | hab
  · rw [Int.compare_eq_lt.2 hab]
    rfl
  · rw [h rfl]
  · rw [Int.compare_eq_gt.2 hab]
    rfl

theorem signField_inj {sign sign2 : Bool} (h : signField sign = signField sign2) : sign = sign2 := by
  cases sign <;> cases sign2 <;> first | rfl | cases h

theorem lex_code_of_compareFields {s t : List Int} (h : v.kind = v2.kind → v.sign = v2.sign →
      lex (body v ++ s) (body v2 ++ t) = (compare k 0).then (lex s t)) :
    lex (code v ++ s) (code v2 ++ t) = (compare (compareFields v v2 k) 0).then (lex s t) := by
  rw [code_eq, code_eq, compareFields, compare_compareThen, compare_compareThen, compare_compareThen]
  simp only [List.cons_append, List.compareLex_cons_cons, Ordering.then_assoc]
  refine compare_then_congr fun hkind => compare_then_congr fun hsign => ?_
  rw [← h hkind (signField_inj hsign)]

theorem lex_elements {l l2 : List (ConstValue w)} (hl : ∀ v ∈ l, Coded v) (hlength : l.length = l2.length)
    (s t : List Int) : lex (l.flatMap code ++ s) (l2.flatMap code ++ t) =
      (compare (compareElements l l2) 0).then (lex s t) := by
  induction l generalizing l2 with
  | nil =>
    obtain rfl := List.length_eq_zero_iff.1 hlength.symm
    rw [compareElements]
    · rfl
    · simp
  | cons v l ih =>
    cases l2 with
    | nil => cases hlength
    | cons v2 l2 =>
      obtain ⟨hv, hl⟩ := List.forall_mem_cons.1 hl
      rw [List.flatMap_cons, List.flatMap_cons, List.append_assoc, List.append_assoc, hv,
        ih hl (Nat.succ.inj hlength), compareElements, ← Ordering.then_assoc]
      congr 1
      split
      · next hne =>
        rcases Int.lt_or_gt_of_ne hne with hlt | hlt
        · rw [Int.compare_eq_lt.2 hlt]
          rfl
        · rw [Int.compare_eq_gt.2 hlt]
          rfl
      · next heq =>
        rw [not_not.1 heq]
        rfl

theorem constValueCompare_address (sign : Bool) (num_bytes : Int) (addr v2 : ConstValue w) :
    constValueCompare (.address sign num_bytes addr) v2 = compareFields (.address sign num_bytes addr) v2
      (match v2 with
      | .address _ _ addr2 => constValueCompare addr addr2
      | _ => 0) := rfl

theorem constValueCompare_multi (kind : MultiKind) (sign : Bool) (num_bytes : Int) (m : MultiValue w)
    (v2 : ConstValue w) :
    constValueCompare (.multi kind sign num_bytes m) v2 = compareFields (.multi kind sign num_bytes m) v2
      (match v2 with
      | .multi _ _ _ m2 => constValueCompareMultival m m2
      | _ => 0) := rfl

theorem constValueCompareMultival_elements (l : List (ConstValue w)) (m2 : MultiValue w) :
    constValueCompareMultival (.elements l) m2 =
      compareThen (MultiValue.elements l).num_elements m2.num_elements
        (match m2 with
        | .cString c_str2 null_ended2 => compareElements l ((stringChars c_str2 null_ended2).map (charValue w))
        | .elements l2 => compareElements l l2) := rfl

theorem constValueCompareMultival_cString (c_str : CString) (null_ended : Bool) (m2 : MultiValue w) :
    constValueCompareMultival (.cString c_str null_ended) m2 =
      compareThen (MultiValue.cString (w := w) c_str null_ended).num_elements m2.num_elements
        (match m2 with
        | .cString c_str2 _ => compareThen (strcmp c_str.chars c_str2.chars) 0 0
        | .elements l2 => compareChars (stringChars c_str null_ended) l2) := rfl

theorem coded (v : ConstValue w) : Coded v := by
  induction v using ConstValue.induction with
  | integer sign num_bytes value =>
    intro v2 s t
    change _ = (compare (compareInteger sign num_bytes value v2) 0).then _
    unfold compareInteger
    refine lex_code_of_compareFields fun hkind hsign => ?_
    cases v2 with
    | integer sign2 num_bytes2 value2 =>
      obtain rfl : sign = sign2 := hsign
      have hbody : lex (body (.integer sign num_bytes value) ++ s) (body (.integer sign num_bytes2 value2) ++ t) =
          (compare (integerKey sign value) (integerKey sign value2)).then (lex s t) :=
        List.compareLex_cons_cons
      rw [hbody, compare_compareThen, compare_self, Ordering.then_eq]
    | address sign2 num_bytes2 addr2 => cases hkind
    | multi kind2 sign2 num_bytes2 m2 => cases kind2 <;> cases hkind
  | address sign num_bytes addr ih =>
    intro v2 s t
    rw [constValueCompare_address]
    refine lex_code_of_compareFields fun hkind _ => ?_
    cases v2 with
    | integer sign2 num_bytes2 value2 => cases hkind
    | address sign2 num_bytes2 addr2 => exact ih addr2 s t
    | multi kind2 sign2 num_bytes2 m2 => cases kind2 <;> cases hkind
  | multi kind sign num_bytes m ih =>
    intro v2 s t
    rw [constValueCompare_multi]
    refine lex_code_of_compareFields fun hkind _ => ?_
    cases v2 with
    | integer sign2 num_bytes2 value2 => cases kind <;> cases hkind
    | address sign2 num_bytes2 addr2 => cases kind <;> cases hkind
    | multi kind2 sign2 num_bytes2 m2 =>
      change lex (codeMultival m ++ s) (codeMultival m2 ++ t) =
        (compare (constValueCompareMultival m m2) 0).then (lex s t)
      rw [constValueCompareMultival_eq, codeMultival_eq, codeMultival_eq, compare_compareThen]
      simp only [List.cons_append, List.compareLex_cons_cons, Ordering.then_assoc]
      refine compare_then_congr fun hnum => lex_elements ih ?_ s t
      rw [num_elements_eq, num_elements_eq] at hnum
      exact Int.ofNat.inj hnum

theorem lex_code (v v2 : ConstValue w) : lex (code v) (code v2) = compare (constValueCompare v v2) 0 := by
  have h := coded v v2 [] []
  have hnil : lex [] [] = .eq := List.compareLex_nil_nil
  rwa [List.append_nil, List.append_nil, hnil, Ordering.then_eq] at h

theorem constValueCompare_neg_iff : constValueCompare v v2 < 0 ↔ lex (code v) (code v2) = .lt := by
  rw [lex_code, Int.compare_eq_lt]

theorem constValueCompare_pos_iff : 0 < constValueCompare v v2 ↔ lex (code v) (code v2) = .gt := by
  rw [lex_code, Int.compare_eq_gt]

theorem constValueCompare_nonpos_iff : constValueCompare v v2 ≤ 0 ↔ (lex (code v) (code v2)).isLE = true := by
  rw [Ordering.isLE_iff_ne_gt]
  exact Int.not_lt.symm.trans (not_congr constValueCompare_pos_iff)

theorem constValueCompare_eq_zero_iff_code : constValueCompare v v2 = 0 ↔ code v = code v2 := by
  have hlex : lex (code v) (code v2) = .eq ↔ code v = code v2 := Std.LawfulEqCmp.compare_eq_iff_eq
  rw [← hlex, lex_code, Int.compare_eq_eq]

theorem threeWay_constValueCompare (w : CValue) : ThreeWay (constValueCompare (w := w)) where
  swap v v2 := by
    have hswap : lex (code v2) (code v) = (lex (code v) (code v2)).swap := Std.OrientedCmp.eq_swap
    rw [constValueCompare_neg_iff, constValueCompare_pos_iff, hswap, Ordering.swap_eq_lt]
  trans u v v2 := by
    rw [constValueCompare_nonpos_iff, constValueCompare_nonpos_iff, constValueCompare_nonpos_iff]
    exact Std.TransCmp.isLE_trans

/-! ## Equal constants -/

/-- Constants of the same kind, sign, size and element values. -/
inductive Same : ConstValue w → ConstValue w → Prop
  | integer (sign : Bool) (num_bytes : Int) (value : BitVec w.bits) :
      Same (.integer sign num_bytes value) (.integer sign num_bytes value)
  | address (sign : Bool) (num_bytes : Int) {addr addr2 : ConstValue w} : Same addr addr2 →
      Same (.address sign num_bytes addr) (.address sign num_bytes addr2)
  | multi (kind : MultiKind) (sign : Bool) (num_bytes : Int) {m m2 : MultiValue w} :
      m.num_elements = m2.num_elements →
      (∀ i v v2, multivalGetElementNum m i = some v → multivalGetElementNum m2 i = some v2 → Same v v2) →
      Same (.multi kind sign num_bytes m) (.multi kind sign num_bytes m2)

theorem multivalGetElementNum_eq (m : MultiValue w) (i : Nat) : multivalGetElementNum m i = m.toList[i]? := by
  cases m with
  | elements l => rfl
  | cString c_str null_ended =>
    have hmap : ∀ cs : List UInt8, (cs.map (charValue w))[i]? = cs[i]?.map (charValue w) :=
      fun cs => List.getElem?_map
    have hlength : c_str.strlen = c_str.chars.length := rfl
    simp only [multivalGetElementNum, MultiValue.num_elements, MultiValue.toList, stringChars, hmap]
    cases null_ended with
    | false =>
      simp only [Bool.false_eq_true, if_false, Int.add_zero, List.append_nil, if_true, Int.ofNat_le]
      split
      · next hle => rw [List.getElem?_eq_none hle, Option.map_none]
      · rfl
    | true =>
      have hne : ¬ (c_str.strlen : Int) = c_str.strlen + 1 := by omega
      simp only [if_true, if_neg hne]
      rcases Nat.lt_trichotomy i c_str.strlen with hlt | rfl | hgt
      · rw [if_neg (by omega), if_neg (Nat.ne_of_lt hlt), List.getElem?_append_left hlt]
      · rw [if_neg (by omega), if_pos rfl, hlength, List.getElem?_concat_length]
        have hzero : (0 : UInt8).toBitVec.signExtend w.bits = 0 := by cases w <;> rfl
        rw [Option.map_some, charValue, hzero]
      · rw [if_pos (by omega), List.getElem?_eq_none (by rw [List.length_append, ← hlength]; exact hgt),
          Option.map_none]

theorem Same.code_eq (h : Same v v2) : code v = code v2 := by
  induction h with
  | integer sign num_bytes value => rfl
  | address sign num_bytes _ ih => rw [code, code, ih]
  | @multi kind sign num_bytes m m2 hnum _ ih =>
    have hmap : m.toList.map code = m2.toList.map code := by
      apply List.ext_getElem?
      intro i
      rw [List.getElem?_map, List.getElem?_map]
      rw [num_elements_eq, num_elements_eq] at hnum
      rcases Nat.lt_or_ge i m.toList.length with hi | hi
      · have hi2 : i < m2.toList.length := by omega
        have helement := ih i m.toList[i] m2.toList[i]
        rw [multivalGetElementNum_eq, multivalGetElementNum_eq, List.getElem?_eq_getElem hi,
          List.getElem?_eq_getElem hi2] at helement
        rw [List.getElem?_eq_getElem hi, List.getElem?_eq_getElem hi2, Option.map_some, Option.map_some,
          helement rfl rfl]
      · rw [List.getElem?_eq_none hi, List.getElem?_eq_none (by omega)]
    rw [code, code, codeMultival_eq, codeMultival_eq, hnum, List.flatMap_def, List.flatMap_def, hmap]

theorem compareThen_eq_zero_iff : compareThen a b k = 0 ↔ a = b ∧ k = 0 := by
  unfold compareThen
  split
  · next hne => exact iff_of_false (by split <;> decide) fun h => hne h.1
  · next heq => rw [not_not.1 heq, eq_self, true_and]

theorem eq_zero_of_compareElements {l l2 : List (ConstValue w)} (h : compareElements l l2 = 0) (i : Nat)
    (hv : l[i]? = some v) (hv2 : l2[i]? = some v2) : constValueCompare v v2 = 0 := by
  induction l generalizing l2 i with
  | nil => cases hv
  | cons x l ih =>
    cases l2 with
    | nil => cases hv2
    | cons x2 l2 =>
      rw [compareElements] at h
      split at h
      · next hne => exact absurd h hne
      · next heq =>
        cases i with
        | zero =>
          obtain rfl := Option.some.inj hv
          obtain rfl := Option.some.inj hv2
          exact not_not.1 heq
        | succ i => exact ih h i hv hv2

theorem eq_of_compareFields (h : compareFields v v2 k = 0) :
    v.kind = v2.kind ∧ v.sign = v2.sign ∧ v.num_bytes = v2.num_bytes ∧ k = 0 := by
  rw [compareFields, compareThen_eq_zero_iff, compareThen_eq_zero_iff, compareThen_eq_zero_iff] at h
  exact ⟨h.1, signField_inj h.2.1, h.2.2.1, h.2.2.2⟩

theorem integerKey_inj {sign : Bool} {value value2 : BitVec w.bits}
    (h : integerKey sign value = integerKey sign value2) : value = value2 := by
  cases sign with
  | true => exact BitVec.eq_of_toInt_eq h
  | false => exact BitVec.eq_of_toNat_eq (Int.ofNat.inj h)

theorem MultiKind.toInt_inj {kind kind2 : MultiKind} (h : kind.toInt = kind2.toInt) : kind = kind2 := by
  cases kind <;> cases kind2 <;> first | rfl | cases h

theorem same_of_eq_zero (v : ConstValue w) : ∀ v2, constValueCompare v v2 = 0 → Same v v2 := by
  induction v using ConstValue.induction with
  | integer sign num_bytes value =>
    intro v2 h
    change compareInteger sign num_bytes value v2 = 0 at h
    unfold compareInteger at h
    obtain ⟨hkind, hsign, hbytes, hvalue⟩ := eq_of_compareFields h
    cases v2 with
    | integer sign2 num_bytes2 value2 =>
      obtain rfl : sign = sign2 := hsign
      obtain rfl : num_bytes = num_bytes2 := hbytes
      obtain rfl := integerKey_inj (compareThen_eq_zero_iff.1 hvalue).1
      exact .integer sign num_bytes value
    | address sign2 num_bytes2 addr2 => cases hkind
    | multi kind2 sign2 num_bytes2 m2 => cases kind2 <;> cases hkind
  | address sign num_bytes addr ih =>
    intro v2 h
    rw [constValueCompare_address] at h
    obtain ⟨hkind, hsign, hbytes, haddr⟩ := eq_of_compareFields h
    cases v2 with
    | integer sign2 num_bytes2 value2 => cases hkind
    | address sign2 num_bytes2 addr2 =>
      obtain rfl : sign = sign2 := hsign
      obtain rfl : num_bytes = num_bytes2 := hbytes
      exact .address sign num_bytes (ih addr2 haddr)
    | multi kind2 sign2 num_bytes2 m2 => cases kind2 <;> cases hkind
  | multi kind sign num_bytes m ih =>
    intro v2 h
    rw [constValueCompare_multi] at h
    obtain ⟨hkind, hsign, hbytes, hm⟩ := eq_of_compareFields h
    cases v2 with
    | integer sign2 num_bytes2 value2 => cases kind <;> cases hkind
    | address sign2 num_bytes2 addr2 => cases kind <;> cases hkind
    | multi kind2 sign2 num_bytes2 m2 =>
      obtain rfl : sign = sign2 := hsign
      obtain rfl : num_bytes = num_bytes2 := hbytes
      obtain rfl := MultiKind.toInt_inj hkind
      change constValueCompareMultival m m2 = 0 at hm
      rw [constValueCompareMultival_eq, compareThen_eq_zero_iff] at hm
      refine .multi kind sign num_bytes hm.1 fun i v v2 hv hv2 => ?_
      rw [multivalGetElementNum_eq] at hv hv2
      exact ih v (List.mem_of_getElem? hv) v2 (eq_zero_of_compareElements hm.2 i hv hv2)

theorem constValueCompare_eq_zero_iff : constValueCompare v v2 = 0 ↔ Same v v2 :=
  ⟨same_of_eq_zero v v2, fun h => constValueCompare_eq_zero_iff_code.2 h.code_eq⟩

end

end OmpSs.Mcxx.ConstOrder
