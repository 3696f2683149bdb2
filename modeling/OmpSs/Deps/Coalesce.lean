import OmpSs.Deps.DependableObject
import OmpSs.Support.RegionSets
import OmpSs.Support.RegionTreePopulate
import OmpSs.Support.RegionTreeVisit

/-!
# Coalescing the accesses of a task

Before it looks at the map, `submitDependableObjectInternal` of the two region plugins
(`plugins/deps/regions_deps.cpp:50`, `plugins/deps/perfect_regions_deps.cpp:50`) puts the accesses of the task
into a region tree of its own: `findAndPopulate` cuts the leaves that reach out of the region of an access and
adds what is missing, and then the flags of the access are added to every leaf of the region. The task is
submitted with the leaves. They are disjoint, they cover the addresses of the accesses, and each has the flags
of all the accesses to its addresses (`Coalesces`), unless something is cut at its last bit. The parameter
`wide` is what a shift by the width of a word gives (`RegionPart`).
-/

namespace OmpSs.Deps

open Support FullRegion

namespace AccessType

/-- Source: the default constructor of `AccessType` (`core/dataaccess_decl.hpp:147`). -/
instance : Inhabited AccessType :=
  ⟨{ input := false, output := false, concurrent := true, commutative := true }⟩

/-- Source: `AccessType::operator|=` (`core/dataaccess_decl.hpp:173`). -/
def orAssign (ty flags : AccessType) : AccessType where
  input := ty.input || flags.input
  output := ty.output || flags.output
  concurrent := ty.concurrent && flags.concurrent
  commutative := ty.commutative && flags.commutative

theorem default_orAssign (flags : AccessType) : (default : AccessType).orAssign flags = flags := by
  show (⟨false || flags.input, false || flags.output, true && flags.concurrent,
    true && flags.commutative⟩ : AccessType) = flags
  simp

theorem Plain.orAssign {ty flags : AccessType} (h : ty.Plain) (h' : flags.Plain) :
    (ty.orAssign flags).Plain := by
  rcases h with rfl | rfl | rfl <;> rcases h' with rfl | rfl | rfl <;> decide

end AccessType

namespace RegionDomain

/-- The accesses of a task: the region and the kind of each. -/
abbrev Accesses := List (FullRegion × AccessType)

/-- `(*accessor) |= dataAccess.flags` for the leaf of a region. -/
def orFlags (flags : AccessType) (root : Node AccessType) (k : Region) : Node AccessType :=
  root.writeLeaf (((findExact root k).getD default).orAssign flags) k

section
variable (wide : BitVec 64 → Option (BitVec 64))

/-- One round of the loop over the accesses of the task. -/
def coalesceAccess (root : Node AccessType) (access : FullRegion × AccessType) :
    Option (Node AccessType) := do
  let (root, exactAccessor, accessors) ←
    RegionTree.findAndPopulate wide id root access.1.toRegion (-1)
  some ((accessors ++ exactAccessor.toList).foldl (orFlags access.2) root)

/-- What the loop makes of the accesses of a task: the leaves of `accessTypeRegionTree`. -/
def coalesce (accesses : Accesses) : Option Accesses := do
  let root ← accesses.foldlM (coalesceAccess wide) emptyRoot
  let accessors ← find root (FullRegion.mk 0#64 0#64 rfl).toRegion
  some (accessors.map fun accessor => (fullRegion accessor.region, accessor.data))

/-- No round of the loop cuts anything for the first time at its last bit. -/
def LastBitsKept : Accesses → Node AccessType → Prop
  | [], _ => True
  | access :: accesses, root => RegionTree.LastBitsKept root access.1 ∧
    match coalesceAccess wide root access with
    | some root => LastBitsKept accesses root
    | none => True

instance decidableLastBitsKept : ∀ accesses root, Decidable (LastBitsKept wide accesses root)
  | [], _ => inferInstanceAs (Decidable True)
  | access :: accesses, root =>
    @instDecidableAnd _ _ inferInstance <|
      match coalesceAccess wide root access with
      | some root => decidableLastBitsKept accesses root
      | none => inferInstanceAs (Decidable True)

end

/-! ## The flags of an address -/

instance (r : FullRegion) (x : BitVec 64) : Decidable (r.Contains x) :=
  inferInstanceAs (Decidable (x &&& r.mask = r.value))

/-- The flags of all the accesses to an address. -/
def flagsAt (accesses : Accesses) (x : BitVec 64) : AccessType :=
  accesses.foldl (fun ty p => if p.1.Contains x then ty.orAssign p.2 else ty) default

section
variable {accesses coalesced : Accesses} {p : FullRegion × AccessType} {x : BitVec 64}

theorem flagsAt_append_singleton : flagsAt (accesses ++ [p]) x =
    if p.1.Contains x then (flagsAt accesses x).orAssign p.2 else flagsAt accesses x := by
  rw [flagsAt, List.foldl_append]
  rfl

theorem flagsAt_eq_default (h : ∀ p ∈ accesses, ¬ p.1.Contains x) : flagsAt accesses x = default := by
  induction accesses using List.reverseRecOn with
  | nil => rfl
  | append_singleton accesses p ih =>
    rw [flagsAt_append_singleton, if_neg (h p (by simp))]
    exact ih fun p hp => h p (List.mem_append_left _ hp)

/-- An address that is accessed by `in`, `out` and `inout` accesses only. -/
theorem plain_flagsAt (h : ∀ p ∈ accesses, p.2.Plain) (hx : ∃ p ∈ accesses, p.1.Contains x) :
    (flagsAt accesses x).Plain := by
  induction accesses using List.reverseRecOn with
  | nil => simp at hx
  | append_singleton accesses p ih =>
    have hrest : ∀ p ∈ accesses, p.2.Plain := fun p hp => h p (List.mem_append_left _ hp)
    rw [flagsAt_append_singleton]
    split_ifs with hp
    · by_cases hbefore : ∃ p ∈ accesses, p.1.Contains x
      · exact (ih hrest hbefore).orAssign (h p (by simp))
      · rw [flagsAt_eq_default fun p hp hx => hbefore ⟨p, hp, hx⟩, AccessType.default_orAssign]
        exact h p (by simp)
    · obtain ⟨q, hq, hqx⟩ := hx
      rcases List.mem_append.1 hq with hq | hq
      · exact ih hrest ⟨q, hq, hqx⟩
      · exact absurd hqx (List.mem_singleton.1 hq ▸ hp)

/-- An address is written if and only if one of the accesses to it writes. -/
theorem output_flagsAt : (flagsAt accesses x).output = true ↔
    ∃ p ∈ accesses, p.1.Contains x ∧ p.2.output = true := by
  induction accesses using List.reverseRecOn with
  | nil => simp [flagsAt, default]
  | append_singleton accesses p ih =>
    have hjoin : (flagsAt (accesses ++ [p]) x).output = true ↔
        (flagsAt accesses x).output = true ∨ p.1.Contains x ∧ p.2.output = true := by
      rw [flagsAt_append_singleton]
      split_ifs with hp <;> simp [AccessType.orAssign, hp]
    rw [hjoin, ih]
    simp only [List.mem_append, List.mem_singleton, or_and_right, exists_or, exists_eq_left]

/-! ## What coalescing is for -/

/-- What the loop is for: disjoint accesses, which cover what the accesses of the task cover, each with the
flags of all the accesses to its addresses. -/
structure Coalesces (accesses coalesced : Accesses) : Prop where
  disjoint : coalesced.Pairwise fun p q => ¬ p.1.Intersects q.1
  covers : ∀ x, (∃ p ∈ coalesced, p.1.Contains x) ↔ ∃ p ∈ accesses, p.1.Contains x
  flags : ∀ p ∈ coalesced, ∀ x, p.1.Contains x → p.2 = flagsAt accesses x

theorem Coalesces.plain (h : Coalesces accesses coalesced) (hplain : ∀ p ∈ accesses, p.2.Plain) :
    ∀ p ∈ coalesced, p.2.Plain := by
  intro p hp
  obtain ⟨x, hx⟩ := exists_contains p.1
  rw [h.flags p hp x hx]
  exact plain_flagsAt hplain ((h.covers x).1 ⟨p, hp, hx⟩)

/-- An access of the task is part of one that it is submitted with. -/
theorem Coalesces.exists_access (h : Coalesces accesses coalesced) (hp : p ∈ accesses) (hx : p.1.Contains x) :
    ∃ q ∈ coalesced, q.1.Contains x ∧ (p.2.output = true → q.2.output = true) := by
  obtain ⟨q, hq, hqx⟩ := (h.covers x).2 ⟨p, hp, hx⟩
  refine ⟨q, hq, hqx, fun hout => ?_⟩
  rw [h.flags q hq x hqx]
  exact output_flagsAt.2 ⟨p, hp, hx, hout⟩

/-- The entries of `accessTypeRegionTree` after some of the accesses. -/
structure Entries (accesses : Accesses) (m : FullRegion → Option AccessType) : Prop where
  apart : RegionTree.Apart m
  covers : ∀ x, (∃ k d, m k = some d ∧ k.Contains x) ↔ ∃ p ∈ accesses, p.1.Contains x
  flags : ∀ k d x, m k = some d → k.Contains x → d = flagsAt accesses x

variable {wide : BitVec 64 → Option (BitVec 64)} {root : Node AccessType}
  {m m' : FullRegion → Option AccessType} {out : List FullRegion}

theorem entries_nil : Entries [] fun _ => none :=
  ⟨nofun, fun x => by simp, nofun⟩

/-- Cutting leaves and adding what is missing keeps the flags of each address. -/
theorem Entries.flags_populated (h : Entries accesses m) {r : FullRegion}
    (hpop : RegionTree.Populated id m m' r out) (hdesc : RegionTree.Descends id m m' r) {k : FullRegion}
    {d : AccessType} (hk : m' k = some d) (hx : k.Contains x) : d = flagsAt accesses x := by
  by_cases hcovered : ∃ L e, m L = some e ∧ L.Contains x
  · obtain ⟨L, e, hL, hLx⟩ := hcovered
    obtain ⟨k', d', hk', hx', hdata⟩ := hpop.kept L e x hL hLx
    obtain rfl : k' = k := by_contra fun hne => hpop.apart k' k d' d hk' hk hne ⟨x, hx', hx⟩
    obtain rfl : d' = d := Option.some.inj (hk'.symm.trans hk)
    rw [hdata.elim id id]
    exact h.flags L e x hL hLx
  · rcases hdesc.origin k d hk with ⟨-, rfl⟩ | ⟨L, e, hL, hin, -⟩
    · exact (flagsAt_eq_default fun p hp hx => hcovered ((h.covers x).2 ⟨p, hp, hx⟩)).symm
    · exact absurd ⟨L, e, hL, hin x hx⟩ hcovered

/-- The leaves that `findAndPopulate` returns are those with an address of the region. -/
theorem mem_out_iff {r k : FullRegion} {d : AccessType} (hpop : RegionTree.Populated id m m' r out)
    (hk : m' k = some d) (hx : k.Contains x) : k ∈ out ↔ r.Contains x := by
  constructor
  · exact fun hmem => (hpop.tiles.union x).2 ⟨k, hmem, hx⟩
  · intro hr
    obtain ⟨k', hmem, hx'⟩ := (hpop.tiles.union x).1 hr
    obtain ⟨d', hk'⟩ := hpop.leaves k' hmem
    obtain rfl : k' = k := by_contra fun hne => hpop.apart k' k d' d hk' hk hne ⟨x, hx', hx⟩
    exact hmem

/-- The leaves after a round are at the addresses of the accesses so far. -/
theorem Entries.covers_populated (h : Entries accesses m) {r : FullRegion}
    (hpop : RegionTree.Populated id m m' r out) (hdesc : RegionTree.Descends id m m' r) :
    (∃ k d, m' k = some d ∧ k.Contains x) ↔ (∃ p ∈ accesses, p.1.Contains x) ∨ r.Contains x := by
  rw [← h.covers x]
  constructor
  · rintro ⟨k, d, hk, hx⟩
    rcases hdesc.origin k d hk with ⟨hin, -⟩ | ⟨L, e, hL, hin, -⟩
    · exact .inr (hin x hx)
    · exact .inl ⟨L, e, hL, hin x hx⟩
  · rintro (⟨L, e, hL, hx⟩ | hr)
    · obtain ⟨k, d, hk, hkx, -⟩ := hpop.kept L e x hL hx
      exact ⟨k, d, hk, hkx⟩
    · obtain ⟨k, hmem, hx⟩ := (hpop.tiles.union x).1 hr
      obtain ⟨d, hk⟩ := hpop.leaves k hmem
      exact ⟨k, d, hk, hx⟩

/-- The flags of an access are added to the leaves of its region. -/
theorem Entries.orFlags (h : Entries accesses m) (hpop : RegionTree.Populated id m m' p.1 out)
    (hdesc : RegionTree.Descends id m m' p.1) :
    Entries (accesses ++ [p])
      fun k => if k ∈ out then (m' k).bind fun d => some (d.orAssign p.2) else m' k := by
  have hentry : ∀ k d, (if k ∈ out then (m' k).bind fun d => some (d.orAssign p.2) else m' k) = some d →
      ∃ d', m' k = some d' ∧ d = if k ∈ out then d'.orAssign p.2 else d' := by
    intro k d hk
    split_ifs at hk with hmem
    · obtain ⟨d', hd', heq⟩ := Option.bind_eq_some_iff.1 hk
      exact ⟨d', hd', by rw [if_pos hmem, Option.some.inj heq]⟩
    · exact ⟨d, hk, (if_neg hmem).symm⟩
  refine ⟨fun k k' d d' hk hk' => ?_, fun x => ?_, fun k d x hk hx => ?_⟩
  · obtain ⟨e, he, -⟩ := hentry k d hk
    obtain ⟨e', he', -⟩ := hentry k' d' hk'
    exact hpop.apart k k' e e' he he'
  · have hthis : (∃ q ∈ accesses ++ [p], q.1.Contains x) ↔
        (∃ q ∈ accesses, q.1.Contains x) ∨ p.1.Contains x := by
      simp only [List.mem_append, List.mem_singleton, or_and_right, exists_or, exists_eq_left]
    rw [hthis, ← h.covers_populated hpop hdesc]
    refine exists_congr fun k => ?_
    constructor
    · rintro ⟨d, hk, hx⟩
      obtain ⟨e, he, -⟩ := hentry k d hk
      exact ⟨e, he, hx⟩
    · rintro ⟨d, hk, hx⟩
      rw [hk]
      split_ifs
      · exact ⟨_, rfl, hx⟩
      · exact ⟨_, rfl, hx⟩
  · obtain ⟨e, he, rfl⟩ := hentry k d hk
    rw [flagsAt_append_singleton, h.flags_populated hpop hdesc he hx]
    simp only [mem_out_iff hpop he hx]

theorem visits_orFlags (flags : AccessType) :
    Visits (RegionDomain.orFlags flags) fun _ d => some (d.orAssign flags) := by
  intro root m r d h hr
  have hd : (findExact root r.toRegion).getD default = d := by
    rw [h.findExact, hr]
    rfl
  rw [RegionDomain.orFlags, hd]
  exact h.write hr _

/-- **One round** of the loop that cuts nothing at its last bit. -/
theorem Entries.coalesceAccess (h : Entries accesses m) (hroot : Sound root m)
    (hkept : RegionTree.LastBitsKept root p.1) : ∃ root' m',
      RegionDomain.coalesceAccess wide root p = some root' ∧ Sound root' m' ∧ Entries (accesses ++ [p]) m' := by
  obtain ⟨root₁, m₁, whole, output, hrun, hshape, hholds, hpop, hdesc⟩ :=
    RegionTree.exists_populated wide id hroot.wellShaped hroot.holds h.apart hkept.lastBitsWhole
  have hpop : RegionTree.Populated id m m₁ p.1 (output ++ whole.toList) := hpop.perm List.perm_append_comm
  have hvisit := Sound.visit (visits_orFlags p.2) ⟨hshape, hholds⟩ hpop.nodup fun k hk => by
    obtain ⟨d, hd⟩ := hpop.leaves k hk
    simp [hd]
  refine ⟨_, _, ?_, hvisit, h.orFlags hpop hdesc⟩
  have hmap : output.map toRegion ++ (whole.map toRegion).toList =
      (output ++ whole.toList).map toRegion := by
    cases whole <;> simp
  rw [RegionDomain.coalesceAccess, hrun, ← hmap]
  rfl

/-- The loop over the accesses of the task. -/
theorem Entries.foldlM {rest : Accesses} (h : Entries accesses m) (hroot : Sound root m)
    (hkept : LastBitsKept wide rest root) : ∃ root' m',
      rest.foldlM (RegionDomain.coalesceAccess wide) root = some root' ∧ Sound root' m' ∧
        Entries (accesses ++ rest) m' := by
  induction rest generalizing accesses root m with
  | nil => exact ⟨root, m, rfl, hroot, by rwa [List.append_nil]⟩
  | cons p rest ih =>
    obtain ⟨hthis, hrest⟩ := hkept
    obtain ⟨root₁, m₁, hrun₁, hroot₁, h₁⟩ := h.coalesceAccess hroot hthis
    rw [hrun₁] at hrest
    obtain ⟨root', m', hrun, hroot', h'⟩ := ih h₁ hroot₁ hrest
    rw [List.append_assoc, List.singleton_append] at h'
    refine ⟨root', m', ?_, hroot', h'⟩
    rw [List.foldlM_cons, hrun₁]
    exact hrun

/-- **Coalescing** does what it is for where nothing is cut at its last bit. -/
theorem exists_coalesce (hkept : LastBitsKept wide accesses emptyRoot) :
    ∃ coalesced, coalesce wide accesses = some coalesced ∧ Coalesces accesses coalesced := by
  obtain ⟨root, m, hrun, hroot, h⟩ := entries_nil.foldlM sound_emptyRoot hkept
  rw [List.nil_append] at h
  obtain ⟨out, hfind, hnodup, hmem⟩ :=
    (hroot.wellShaped.container hroot.holds).find (FullRegion.mk 0#64 0#64 rfl)
  have hall : ∀ k : FullRegion, k.Intersects (FullRegion.mk 0#64 0#64 rfl) := fun k => by
    obtain ⟨x, hx⟩ := exists_contains k
    exact ⟨x, hx, BitVec.and_zero⟩
  have hregion : ∀ it ∈ out, ∃ k : FullRegion, it.region = k.toRegion ∧ m k = some it.data := by
    intro it hit
    obtain ⟨k, hk, hd, -⟩ := (hmem it.region it.data).1 ⟨it, hit, rfl, rfl⟩
    exact ⟨k, hk, hd⟩
  have hentry : ∀ q : FullRegion × AccessType,
      q ∈ out.map (fun it => (fullRegion it.region, it.data)) ↔ m q.1 = some q.2 := by
    rintro ⟨k, d⟩
    rw [List.mem_map]
    constructor
    · rintro ⟨it, hit, heq⟩
      obtain ⟨k', hk', hd⟩ := hregion it hit
      rw [hk', fullRegion_toRegion] at heq
      cases heq
      exact hd
    · intro hk
      obtain ⟨it, hit, hreg, hd⟩ := (hmem k.toRegion d).2 ⟨k, rfl, hk, hall k⟩
      exact ⟨it, hit, by rw [hreg, hd, fullRegion_toRegion]⟩
  refine ⟨out.map fun it => (fullRegion it.region, it.data), ?_, ?_, fun x => ?_, fun q hq x hx => ?_⟩
  · rw [coalesce, hrun]
    show (Support.find root _).bind _ = _
    rw [hfind]
    rfl
  · rw [List.pairwise_map]
    refine (List.pairwise_map.1 hnodup).imp_of_mem fun {it it'} hit hit' hne => ?_
    obtain ⟨k, hk, hd⟩ := hregion it hit
    obtain ⟨k', hk', hd'⟩ := hregion it' hit'
    rw [hk, hk', fullRegion_toRegion, fullRegion_toRegion]
    exact h.apart k k' _ _ hd hd' fun heq => hne (by rw [hk, hk', heq])
  · rw [← h.covers x]
    constructor
    · rintro ⟨q, hq, hx⟩
      exact ⟨q.1, q.2, (hentry q).1 hq, hx⟩
    · rintro ⟨k, d, hk, hx⟩
      exact ⟨(k, d), (hentry (k, d)).2 hk, hx⟩
  · exact h.flags q.1 q.2 x ((hentry q).1 hq) hx

end

end RegionDomain

end OmpSs.Deps
