import OmpSs.Lib.RowMajor

/-!
# Linearised array subscripts

`linearize_array_subscript` (`mcxx/src/tl/tl-nodecl-utils.cpp:1667`) replaces the subscripts of an array of
several dimensions, or of a pointer to one, by a single subscript. It collects the sizes of the dimensions
from the type of the array and goes through sizes and subscripts by Horner's rule, with the constants of the
products and sums beside their expressions. The subscript is the row-major offset of the element
(`linearizeArraySubscript_rowMajor`).

Integers are exact. `none` is an internal error.
-/

namespace OmpSs.Mcxx.ArraySubscript

open Lib

/-- Sizes and subscripts are expressions with the constants that they carry, the leaves anything. -/
inductive Nodecl (E : Type*)
  | expr (e : E) (const : Option Int)
  | mul (lhs rhs : Nodecl E) (const : Option Int)
  | add (lhs rhs : Nodecl E) (const : Option Int)
deriving DecidableEq

/-- `derived` stands for the types that `basic_type` looks through besides arrays and pointers: functions,
references, vectors and pointers to members. -/
inductive Ty (E : Type*)
  | pointer (pointee : Ty E)
  | array (size : Option (Nodecl E)) (element : Ty E)
  | derived (base : Ty E)
  | basic (name : Nat)
deriving DecidableEq

/-- Source: `Type::basic_type` (`tl-type.cpp:1230`). -/
def Ty.basicType {E : Type*} : Ty E → Ty E
  | .pointer pointee => pointee.basicType
  | .array _ element => element.basicType
  | .derived base => base.basicType
  | .basic name => .basic name

/-- What is subscripted: an expression, or a conversion of it with its text. -/
inductive Subscripted (E : Type*)
  | expr (e : E) (type : Ty E)
  | conversion (nest : Subscripted E) (type : Ty E) (text : String)
deriving DecidableEq

def Subscripted.type {E : Type*} : Subscripted E → Ty E
  | .expr _ type => type
  | .conversion _ type _ => type

structure Access (E : Type*) where
  subscripted : Subscripted E
  subscripts : List (Nodecl E)
  type : Ty E
  const : Option Int
deriving DecidableEq

variable {E : Type*}

def Nodecl.const : Nodecl E → Option Int
  | .expr _ const => const
  | .mul _ _ const => const
  | .add _ _ const => const

/-- `num_dimensions` sizes, the type being the one after `i` dimensions. A pointer has no size. -/
def collectSizes (i : Nat) (subscripted_type : Ty E) : Nat → Option (List (Option (Nodecl E)))
  | 0 => some []
  | num_dimensions + 1 => match subscripted_type with
    | .pointer pointee => if i = 0 then (collectSizes (i + 1) pointee num_dimensions).map (none :: ·) else none
    | .array (some size) element => (collectSizes (i + 1) element num_dimensions).map (some size :: ·)
    | _ => none

/-- A product or sum of constants is constant. -/
def both (f : Int → Int → Int) (lhs rhs : Option Int) : Option Int :=
  lhs.bind fun lhs => rhs.map fun rhs => f lhs rhs

/-- A round of the loop after the first one. -/
def horner (new_linearized_subscript : Nodecl E) (size index : Nodecl E) : Nodecl E :=
  let dim_offset := .mul size new_linearized_subscript (both (· * ·) size.const new_linearized_subscript.const)
  .add dim_offset index (both (· + ·) dim_offset.const index.const)

/-- The rounds after the first one. The size of a dimension that is no array is a null tree. -/
def hornerLoop (new_linearized_subscript : Nodecl E) :
    List (Option (Nodecl E)) → List (Nodecl E) → Option (Nodecl E)
  | _, [] => some new_linearized_subscript
  | some size :: sizes, index :: indexes => hornerLoop (horner new_linearized_subscript size index) sizes indexes
  | _, _ :: _ => none

/-- Source: `Utils::linearize_array_subscript` (`tl-nodecl-utils.cpp:1667`). -/
def linearizeArraySubscript (n : Access E) : Option (Access E) :=
  if n.subscripts.length = 1 then some n
  else
    (collectSizes 0 n.subscripted.type n.subscripts.length).bind fun sizes =>
    match n.subscripts with
    | [] => none
    | index :: indexes =>
      (hornerLoop index sizes.tail indexes).map fun new_linearized_subscript =>
        { subscripted := .conversion n.subscripted (.pointer n.subscripted.type.basicType) "C"
          subscripts := [new_linearized_subscript]
          type := n.type
          const := n.const }

/-! ## The meaning -/

def Nodecl.value (env : E → Int) : Nodecl E → Int
  | .expr e _ => env e
  | .mul lhs rhs _ => lhs.value env * rhs.value env
  | .add lhs rhs _ => lhs.value env + rhs.value env

/-- Every constant in the expression is the value of what carries it. -/
def Nodecl.Sound (env : E → Int) : Nodecl E → Prop
  | .expr e const => ∀ v ∈ const, v = env e
  | .mul lhs rhs const => lhs.Sound env ∧ rhs.Sound env ∧ ∀ v ∈ const, v = lhs.value env * rhs.value env
  | .add lhs rhs const => lhs.Sound env ∧ rhs.Sound env ∧ ∀ v ∈ const, v = lhs.value env + rhs.value env

/-- The type of an array whose dimensions have these sizes. -/
def arrayOf (sizes : List (Nodecl E)) (element : Ty E) : Ty E :=
  sizes.foldr (fun size t => .array (some size) t) element

/-- An array, or a pointer to one: the first size is unknown. -/
def dimensioned (first : Option (Nodecl E)) (rest : List (Nodecl E)) (element : Ty E) : Ty E :=
  match first with
  | some size => arrayOf (size :: rest) element
  | none => .pointer (arrayOf rest element)

def Access.index (env : E → Int) (n : Access E) : List Int := n.subscripts.map (·.value env)

/-- The indices are below the sizes that are known. -/
def Access.InBounds (env : E → Int) (n : Access E) (first : Option (Nodecl E)) (rest : List (Nodecl E)) : Prop :=
  match first with
  | some size => Lib.InBounds ((size :: rest).map (·.value env)) (n.index env)
  | none => Lib.InBounds (rest.map (·.value env)) (n.index env).tail

/-! ## The sizes -/

section
variable {env : E → Int} {n m : Access E} {first : Option (Nodecl E)} {rest indexes : List (Nodecl E)}
  {element : Ty E} {acc size index : Nodecl E}

theorem collectSizes_arrayOf (i : Nat) (sizes : List (Nodecl E)) (element : Ty E) :
    collectSizes i (arrayOf sizes element) sizes.length = some (sizes.map some) := by
  induction sizes generalizing i with
  | nil => rfl
  | cons size sizes ih =>
    rw [List.length_cons, arrayOf, List.foldr_cons, collectSizes]
    rw [arrayOf] at ih
    rw [ih]
    rfl

theorem collectSizes_dimensioned (first : Option (Nodecl E)) (rest : List (Nodecl E)) (element : Ty E) :
    collectSizes 0 (dimensioned first rest element) (rest.length + 1) = some (first :: rest.map some) := by
  cases first with
  | none =>
    rw [dimensioned, collectSizes, if_pos rfl, collectSizes_arrayOf]
    rfl
  | some size => exact collectSizes_arrayOf 0 (size :: rest) element

/-! ## The loop -/

theorem value_horner : (horner acc size index).value env = size.value env * acc.value env + index.value env := rfl

theorem Nodecl.Sound.const_eq {e : Nodecl E} (h : e.Sound env) : ∀ v ∈ e.const, v = e.value env := by
  cases e with
  | expr e const => exact h
  | mul lhs rhs const => exact h.2.2
  | add lhs rhs const => exact h.2.2

theorem both_sound {f : Int → Int → Int} {lhs rhs : Nodecl E} (hlhs : lhs.Sound env) (hrhs : rhs.Sound env) :
    ∀ v ∈ both f lhs.const rhs.const, v = f (lhs.value env) (rhs.value env) := by
  intro v hv
  simp only [both, Option.mem_def, Option.bind_eq_some_iff, Option.map_eq_some_iff] at hv
  obtain ⟨a, ha, b, hb, rfl⟩ := hv
  rw [hlhs.const_eq a ha, hrhs.const_eq b hb]

theorem Nodecl.Sound.horner (hacc : acc.Sound env) (hsize : size.Sound env) (hindex : index.Sound env) :
    (horner acc size index).Sound env := by
  have hmul : (Nodecl.mul size acc (both (· * ·) size.const acc.const)).Sound env :=
    ⟨hsize, hacc, both_sound hsize hacc⟩
  exact ⟨hmul, hindex, both_sound hmul hindex⟩

theorem hornerLoop_eq (h : rest.length = indexes.length) (acc : Nodecl E) :
    ∃ subscript, hornerLoop acc (rest.map some) indexes = some subscript ∧
      (∀ env, subscript.value env =
        ((rest.map (·.value env)).zip (indexes.map (·.value env))).foldl (fun acc p => p.1 * acc + p.2)
          (acc.value env)) ∧
      ∀ env, (∀ e ∈ rest, e.Sound env) → (∀ e ∈ acc :: indexes, e.Sound env) → subscript.Sound env := by
  induction rest generalizing indexes acc with
  | nil =>
    rw [List.eq_nil_of_length_eq_zero h.symm]
    exact ⟨acc, rfl, fun _ => rfl, fun env _ hindexes => hindexes acc List.mem_cons_self⟩
  | cons size rest ih =>
    obtain ⟨index, indexes, rfl⟩ := List.exists_cons_of_length_eq_add_one h.symm
    obtain ⟨subscript, heq, hvalue, hsound⟩ := ih (Nat.succ.inj h) (horner acc size index)
    refine ⟨subscript, heq, fun env => ?_, fun env hsizes hindexes => hsound env ?_ ?_⟩
    · rw [hvalue, value_horner]
      rfl
    · exact fun e he => hsizes e (List.mem_cons_of_mem _ he)
    · rw [List.forall_mem_cons, List.forall_mem_cons] at hindexes
      rw [List.forall_mem_cons] at hsizes ⊢
      exact ⟨hindexes.1.horner hsizes.1 hindexes.2.1, hindexes.2.2⟩

end

/-! ## The subscript -/

/-- One subscript for each dimension of the array, which has two of them at least. -/
structure Access.Of (n : Access E) (first : Option (Nodecl E)) (rest : List (Nodecl E)) (element : Ty E) : Prop where
  type : n.subscripted.type = dimensioned first rest element
  length : n.subscripts.length = rest.length + 1
  rest_ne_nil : rest ≠ []

section
variable {env env' : E → Int} {n m : Access E} {first : Option (Nodecl E)} {rest : List (Nodecl E)} {element : Ty E}

theorem basicType_dimensioned : (dimensioned first rest element).basicType = element.basicType := by
  have harray : ∀ sizes : List (Nodecl E), (arrayOf sizes element).basicType = element.basicType := by
    intro sizes
    induction sizes with
    | nil => rfl
    | cons size sizes ih => exact ih
  cases first with
  | none => exact harray rest
  | some size => exact harray (size :: rest)

theorem Access.Of.linearize (hn : n.Of first rest element) :
    ∃ subscript, linearizeArraySubscript n =
        some ⟨.conversion n.subscripted (.pointer element.basicType) "C", [subscript], n.type, n.const⟩ ∧
      (∀ env, subscript.value env = rowMajor (rest.map (·.value env)) (n.index env)) ∧
      ∀ env, (∀ e ∈ rest, e.Sound env) → (∀ e ∈ n.subscripts, e.Sound env) → subscript.Sound env := by
  obtain ⟨htype, hlength, hrest⟩ := hn
  obtain ⟨index, indexes, hindexes⟩ := List.exists_cons_of_length_eq_add_one hlength
  rw [hindexes] at hlength
  obtain ⟨subscript, hloop, hvalue, hsound⟩ := hornerLoop_eq (Nat.succ.inj hlength).symm index
  refine ⟨subscript, ?_, fun env => ?_, hindexes ▸ hsound⟩
  · have hne : ¬ (index :: indexes).length = 1 := by
      rw [hlength, Nat.add_eq_right]
      exact fun h => hrest (List.eq_nil_of_length_eq_zero h)
    have hsizes := collectSizes_dimensioned first rest element
    rw [← hlength, ← htype] at hsizes
    rw [linearizeArraySubscript, hindexes, if_neg hne, hsizes, Option.bind_some]
    change (hornerLoop index (rest.map some) indexes).map _ = _
    rw [hloop, htype, basicType_dimensioned]
    rfl
  · have hmap : (rest.map (·.value env)).length = (indexes.map (·.value env)).length := by
      rw [List.length_map, List.length_map, ← Nat.succ.inj hlength]
    rw [hvalue, foldl_horner hmap, Access.index, hindexes, List.map_cons]

/-- In bounds, the indices after the first one decide within a row. -/
theorem Access.Of.index_eq (hn : n.Of first rest element) (hbounds : n.InBounds env first rest) :
    ∃ i index, n.index env = i :: index ∧ Lib.InBounds (rest.map (·.value env)) index := by
  obtain ⟨i, index, hindex⟩ : ∃ i index, n.index env = i :: index :=
    List.exists_cons_of_length_eq_add_one ((List.length_map _).trans hn.length)
  refine ⟨i, index, hindex, ?_⟩
  cases first with
  | none => rwa [Access.InBounds, hindex] at hbounds
  | some size =>
    rw [Access.InBounds, hindex] at hbounds
    exact (List.forall₂_cons.1 hbounds).2

/-- The access that is built has one subscript, the row-major offset. Different index tuples of accesses to
one array have different ones, below the product of the sizes where the first size is known, and the constants
in it are values if those of the sizes and indices are. -/
structure Access.LinearizedTo (n : Access E) (first : Option (Nodecl E)) (rest : List (Nodecl E)) (element : Ty E)
    (subscript : Nodecl E) : Prop where
  linear : linearizeArraySubscript n =
    some ⟨.conversion n.subscripted (.pointer element.basicType) "C", [subscript], n.type, n.const⟩
  offset : ∀ env, subscript.value env = rowMajor (rest.map (·.value env)) (n.index env)
  bounds : ∀ env, n.InBounds env first rest → ∀ size ∈ first,
    0 ≤ subscript.value env ∧ subscript.value env < ((size :: rest).map (·.value env)).prod
  injective : ∀ (env env' : E → Int) (m r : Access E), m.Of first rest element →
    linearizeArraySubscript m = some r → rest.map (·.value env') = rest.map (·.value env) →
    n.InBounds env first rest → m.InBounds env' first rest → m.index env' ≠ n.index env →
      r.index env' ≠ [subscript.value env]
  sound : ∀ env, (∀ e ∈ rest, e.Sound env) → (∀ e ∈ n.subscripts, e.Sound env) →
    subscript.Sound env ∧ ∀ v ∈ subscript.const, v = subscript.value env

/-- **The access that is built** is the row-major one. -/
theorem linearizeArraySubscript_rowMajor (hn : n.Of first rest element) :
    ∃ subscript, n.LinearizedTo first rest element subscript := by
  obtain ⟨subscript, hlinear, hvalue, hsound⟩ := hn.linearize
  refine ⟨subscript, hlinear, hvalue, ?_, ?_, fun env hsizes hindexes => ?_⟩
  · rintro env hbounds size rfl
    have h := InBounds.rowMajor_bounds hbounds
    rw [List.map_cons, List.tail_cons, ← hvalue env] at h
    exact h
  · intro env env' m r hm hr hsizes hbounds hbounds' hne heq
    obtain ⟨subscript', hlinear', hvalue', -⟩ := hm.linearize
    obtain rfl := Option.some.inj (hr.symm.trans hlinear')
    obtain ⟨i, index, hindex, hrow⟩ := hn.index_eq hbounds
    obtain ⟨i', index', hindex', hrow'⟩ := hm.index_eq hbounds'
    rw [Access.index, List.map_singleton, hvalue, hvalue', hsizes, hindex, hindex', List.singleton_inj] at heq
    rw [hsizes] at hrow'
    obtain ⟨rfl, rfl⟩ := rowMajor_injective hrow' hrow heq
    exact hne (hindex'.trans hindex.symm)
  · have h := hsound env hsizes hindexes
    exact ⟨h, h.const_eq⟩

end

/-- `p[2][j]` for a pointer to rows of three elements. -/
theorem linearizeArraySubscript_rowMajor_pointer :
    ∃ subscript, (Access.mk (.expr "p" (dimensioned none [.expr "3" (some 3)] (.basic 0)))
        [.expr "2" (some 2), .expr "j" none] (.basic 0) none).LinearizedTo
      none [.expr "3" (some 3)] (.basic 0) subscript :=
  linearizeArraySubscript_rowMajor ⟨rfl, rfl, by decide⟩

end OmpSs.Mcxx.ArraySubscript
