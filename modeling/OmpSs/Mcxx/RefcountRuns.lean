import OmpSs.Mcxx.RefcountBalance

/-!
# Runs of the reference counts

Every step of a run keeps the balance of the counts (`Balanced.exec`), where the buffer of roots is not
filled while an object under release is in it. So such a run reads no memory that is not allocated, and a
collection leaves what the program can reach and nothing else (`guarded_run_safe`). Where the buffer is
filled under a release, an object in use can be freed (`full_buffer_not_safe`).
-/

namespace OmpSs.Mcxx

open Lib Relation

namespace Machine

section
variable {m m' : Machine} {p i x y : Nat} {value : Option Nat}

/-- The references to an object from outside: those of the program, and those in the fields that the
releases under way have not come to. -/
def refs (m : Machine) (x : Nat) : Nat := m.ext x + (m.releasing.flatMap Prod.snd).count (some x)

/-- What holds in a run: the counts are right, and the buffer of roots is not full. -/
structure Balanced (m : Machine) : Prop where
  sound : m.heap.Sound m.refs (m.releasing.map Prod.fst)
  room : m.heap.roots.length < maxRoots

/-- `mcxx_decrement` keeps the balance, where the reference it takes back is none of the machine's any
more. -/
theorem decrement_spec
    (h : m.heap.Sound (fun x => m.refs x + if x = p then 1 else 0) (m.releasing.map Prod.fst))
    (hroom : m.heap.roots.length < maxRoots)
    (hguard : 1 < (m.heap.obj p).count → (m.heap.obj p).colour ≠ .purple →
      (m.heap.obj p).buffered = false → m.heap.roots.length + 1 = maxRoots →
      ∀ f ∈ m.releasing, (m.heap.obj f.1).buffered = false) :
    ∃ m', m.decrement (some p) = some m' ∧ m'.Balanced := by
  have hpos : 0 < m.refs p + if p = p then 1 else 0 := by
    rw [if_pos rfl]
    omega
  have hlive := h.mem_live_of_pos (x := p) (Nat.add_pos_left hpos _)
  obtain ⟨halloc, hcount⟩ := (Refcount.mem_live h).1 hlive
  have hrefs : ∀ x, m.refs x + (if x = p then 1 else 0) - (if x = p then 1 else 0) = m.refs x := fun x =>
    Nat.add_sub_cancel _ _
  rw [decrement, if_pos halloc]
  simp only [Refcount.addCount_count, if_pos, Refcount.addCount_fields]
  split
  · next hzero =>
    have hsound := h.release hpos (by omega)
    simp only [hrefs] at hsound
    refine ⟨_, rfl, ?_, hroom⟩
    have hrefs' : refs { m with
          heap := m.heap.addCount p (-1)
          releasing := (p, (m.heap.obj p).fields) :: m.releasing } =
        fun x => m.refs x + (m.heap.obj p).fields.count (some x) := funext fun x => by
      rw [refs, refs, List.flatMap_cons, List.count_append]
      dsimp only
      omega
    rw [hrefs']
    exact hsound
  · next hzero =>
    have hmany : 1 < (m.heap.obj p).count := by omega
    obtain ⟨s', hs', hsound, hroom'⟩ := h.possibleRoot hroom hpos hmany fun hpurple hbuffered hfull q hq => by
      obtain ⟨f, hf, rfl⟩ := List.mem_map.1 hq
      exact hguard hmany hpurple hbuffered hfull f hf
    simp only [hrefs] at hsound
    rw [if_neg (by omega), hs', Option.map_some]
    exact ⟨_, rfl, hsound, hroom'⟩

/-- The release under way goes on. -/
theorem walk_spec (h : m.Balanced) (hrel : m.releasing ≠ [])
    (hguard : m.FillsRoots → ∀ f ∈ m.releasing, (m.heap.obj f.1).buffered = false) :
    ∃ m', m.walk = some m' ∧ m'.Balanced := by
  obtain ⟨⟨p, fields⟩, releasing, hm⟩ := List.exists_cons_of_ne_nil hrel
  have halloc : m.heap.allocated p = true :=
    (h.sound.releasing p (by rw [hm]; exact List.mem_cons_self)).1
  rw [walk, hm]
  cases fields with
  | nil =>
    dsimp only
    rw [if_pos halloc]
    have hsound := h.sound
    rw [hm] at hsound
    obtain ⟨s', hs', hsound', hroots⟩ := hsound.finish
    refine ⟨{ m with heap := s', releasing }, by rw [hs', Option.map_some], ?_, ?_⟩
    · have hrefs : refs { m with heap := s', releasing } = m.refs := funext fun x => by
        rw [refs, refs, hm, List.flatMap_cons, List.nil_append]
      rw [hrefs]
      exact hsound'
    · exact hroots ▸ h.room
  | cons field rest =>
    dsimp only
    rw [if_pos halloc]
    cases field with
    | none =>
      refine ⟨_, rfl, ?_, h.room⟩
      have hrefs : refs { m with releasing := (p, rest) :: releasing } = m.refs := funext fun x => by
        rw [refs, refs, hm, List.flatMap_cons, List.flatMap_cons, List.count_append, List.count_append]
        simp
      have hsound := h.sound
      rw [hm] at hsound
      rw [hrefs]
      exact hsound
    | some q =>
      refine decrement_spec ?_ h.room fun hmany hpurple hbuffered hfull f hf => ?_
      · have hrefs : (fun x => refs { m with releasing := (p, rest) :: releasing } x + if x = q then 1 else 0) =
            m.refs := funext fun x => by
          rw [refs, refs, hm, List.flatMap_cons, List.flatMap_cons, List.count_append, List.count_append,
            List.count_cons]
          rcases eq_or_ne x q with rfl | hne
          · simp
            omega
          · simp [hne, hne.symm]
        have hsound := h.sound
        rw [hm] at hsound
        rw [hrefs]
        exact hsound
      · have hall := hguard ⟨p, q, rest, releasing, hm, hmany, hpurple, hbuffered, hfull⟩
        rw [hm] at hall
        rcases List.mem_cons.1 hf with rfl | hf
        · exact hall (p, some q :: rest) List.mem_cons_self
        · exact hall f (List.mem_cons_of_mem _ hf)

/-! ## What the program does -/

theorem balanced_of_sound (hrel : m.releasing = []) {s : Refcount} {ext : Nat → Nat} (hsound : s.Sound ext [])
    (hroom : s.roots.length < maxRoots) : Balanced { m with heap := s, ext } := by
  refine ⟨?_, hroom⟩
  have hrefs : refs { m with heap := s, ext } = ext := funext fun x => by
    rw [refs, hrel]
    rfl
  rw [hrefs]
  change s.Sound ext (m.releasing.map Prod.fst)
  rw [hrel]
  exact hsound

section Program
variable (h : m.Balanced) (hrel : m.releasing = [])
include h hrel

theorem Balanced.sound_ext : m.heap.Sound m.ext [] := by
  have hrefs : m.refs = m.ext := funext fun x => by
    rw [refs, hrel]
    rfl
  have hsound := h.sound
  rwa [hrefs, hrel] at hsound

theorem create_spec (n : Nat) : (m.create n).Balanced := by
  have hs := h.sound_ext hrel
  have hobj : ∀ x, (m.create n).heap.obj x =
      if x = m.heap.size then ⟨1, false, .black, List.replicate n none⟩ else m.heap.obj x := fun x =>
    Function.update_apply _ _ _ _
  have halloc : ∀ x, (m.create n).heap.allocated x = if x = m.heap.size then true else m.heap.allocated x :=
    fun x => Function.update_apply _ _ _ _
  have hext : ∀ x, (m.create n).ext x = if x = m.heap.size then 1 else m.ext x := fun x =>
    Function.update_apply _ _ _ _
  have hnew : m.heap.allocated m.heap.size = false := Bool.eq_false_of_not_eq_true fun ha =>
    absurd (hs.sized _ ha) (lt_irrefl _)
  have hne : ∀ {x}, m.heap.allocated x = true → x ≠ m.heap.size := by
    rintro x ha rfl
    rw [hnew] at ha
    cases ha
  have hnl : m.heap.size ∉ m.heap.live := fun hmem => hne ((Refcount.mem_live hs).1 hmem).1 rfl
  have hlive : (m.create n).heap.live = insert m.heap.size m.heap.live := by
    ext x
    rw [Finset.mem_insert, Refcount.mem_live hs, Refcount.live, Finset.mem_filter, Finset.mem_range, hobj,
      halloc]
    rcases eq_or_ne x m.heap.size with rfl | hx
    · simp [create]
    · simp only [hx, false_or]
      refine ⟨And.right, fun hx' => ⟨?_, hx'⟩⟩
      exact lt_trans (hs.sized x hx'.1) (Nat.lt_succ_self _)
  have hinto : ∀ x, (m.create n).heap.into (insert m.heap.size m.heap.live) x =
      m.heap.into m.heap.live x := by
    intro x
    rw [Refcount.into_insert hnl, Refcount.edges, hobj, if_pos rfl, List.count_replicate]
    simp only [reduceCtorEq, beq_iff_eq, if_false, Nat.zero_add]
    refine Finset.sum_congr rfl fun y hy => ?_
    rw [Refcount.edges, Refcount.edges, hobj, if_neg (hne ((Refcount.mem_live hs).1 hy).1)]
  have hpath : ∀ {q x}, q ∈ m.heap.live → ReflTransGen m.heap.Points q x →
      ReflTransGen (m.create n).heap.Points q x := by
    intro q x hq hqx
    induction hqx with
    | refl => exact .refl
    | tail hqy hyz ih =>
      have hy := hne ((Refcount.mem_live hs).1 (hs.live_of_path hq hqy)).1
      refine ih.tail ?_
      rw [Refcount.Points, hobj, if_neg hy]
      exact hyz
  have hsound : (m.create n).heap.Sound (m.create n).ext [] := by
    refine ⟨fun x => ?_, fun x hx => ?_, hs.nodup, fun x hx => ?_, fun x => ?_,
      fun x hx => ?_, hs.freeSet, fun x hx => ?_, fun x hx => ?_, fun q hq => (by cases hq), List.nodup_nil,
      fun x hx hzero => .inr ?_, fun x hx => ?_⟩
    · rw [hobj]
      split
      · exact .inl rfl
      · exact hs.plain x
    · rw [halloc] at hx
      split at hx
      · next heq => exact heq ▸ Nat.lt_succ_self _
      · exact lt_trans (hs.sized x hx) (Nat.lt_succ_self _)
    · rw [halloc, if_neg (hne (hs.roots x hx))]
      exact hs.roots x hx
    · rw [hobj]
      split
      · next heq =>
        refine ⟨fun hb => (by cases hb), fun hx => ?_⟩
        exact absurd heq (hne (hs.roots x hx))
      · exact hs.buffered x
    · rw [hobj] at hx
      split at hx
      · cases hx
      · exact hs.purple x hx
    · rw [hlive, hinto, hobj, hext]
      rcases eq_or_ne x m.heap.size with rfl | hx'
      · have hzero := hs.dangling _ hnew
        rw [if_pos rfl, if_pos rfl]
        dsimp only
        omega
      · rw [halloc, if_neg hx'] at hx
        rw [if_neg hx', if_neg hx']
        exact hs.count x hx
    · rw [halloc] at hx
      split at hx
      · cases hx
      · next hx' =>
        rw [hlive, hinto, hext, if_neg hx']
        exact hs.dangling x hx
    · rw [hobj] at hzero ⊢
      rcases eq_or_ne x m.heap.size with rfl | hx'
      · rw [if_pos rfl] at hzero
        cases hzero
      · rw [if_neg hx'] at hzero ⊢
        rw [halloc, if_neg hx'] at hx
        exact (hs.dead x hx hzero).resolve_left fun hmem => by cases hmem
    · rw [hlive, Finset.mem_insert] at hx
      rcases hx with rfl | hx
      · exact .inl ⟨m.heap.size, by rw [hext, if_pos rfl]; exact Nat.zero_lt_one, .refl⟩
      · rcases hs.led x hx with ⟨q, hq, hqx⟩ | ⟨q, hql, hq, hqx⟩
        · have hql := hs.mem_live_of_pos (x := q) (by omega)
          refine .inl ⟨q, ?_, hpath hql hqx⟩
          rw [hext, if_neg (hne ((Refcount.mem_live hs).1 hql).1)]
          exact hq
        · refine .inr ⟨q, ?_, ?_, hpath hql hqx⟩
          · rw [hlive]
            exact Finset.mem_insert_of_mem hql
          · rw [hobj, if_neg (hne ((Refcount.mem_live hs).1 hql).1)]
            exact hq
  exact balanced_of_sound hrel hsound h.room

theorem increment_spec (hp : m.Reachable p) : (m.increment p).Balanced := by
  have hs := h.sound_ext hrel
  have hobj : ∀ x, (m.increment p).heap.obj x = if x = p then
      { m.heap.obj p with count := (m.heap.obj p).count + 1, colour := .black } else m.heap.obj x := fun x =>
    Function.update_apply _ _ _ _
  have hext : ∀ x, (m.increment p).ext x = m.ext x + if x = p then 1 else 0 := fun x => by
    change Function.update m.ext p (m.ext p + 1) x = _
    rw [Function.update_apply]
    split
    · next heq => rw [heq]
    · rfl
  have hfields : ∀ x, ((m.increment p).heap.obj x).fields = (m.heap.obj x).fields := fun x => by
    rw [hobj]
    split
    · next heq => rw [heq]
    · rfl
  have hcount : ∀ x, ((m.increment p).heap.obj x).count = (m.heap.obj x).count + if x = p then 1 else 0 := by
    intro x
    rw [hobj]
    split
    · next heq => rw [heq]
    · rw [Int.add_zero]
  have hcolour : ∀ x, ((m.increment p).heap.obj x).colour =
      if x = p then .black else (m.heap.obj x).colour := fun x => by
    rw [hobj]
    split <;> rfl
  have hbuffered : ∀ x, ((m.increment p).heap.obj x).buffered = (m.heap.obj x).buffered := fun x => by
    rw [hobj]
    split
    · next heq => rw [heq]
    · rfl
  obtain ⟨halloc, hpos⟩ := (Refcount.mem_live hs).1 (hs.live_of_reach hp)
  have hlive : (m.increment p).heap.live = m.heap.live := by
    ext x
    rw [Refcount.live, Refcount.live, Finset.mem_filter, Finset.mem_filter, hcount]
    refine and_congr_right fun _ => and_congr_right fun _ => ?_
    rcases eq_or_ne x p with rfl | hx
    · simp [hpos]
      omega
    · simp [hx]
  have hpoints : (m.increment p).heap.Points = m.heap.Points := funext fun y => funext fun x => by
    rw [Refcount.Points, Refcount.Points, hfields]
  have hinto : ∀ x, (m.increment p).heap.into m.heap.live x = m.heap.into m.heap.live x := fun x =>
    Finset.sum_congr rfl fun y _ => by rw [Refcount.edges, Refcount.edges, hfields]
  have hreach : ∀ x, m.heap.Reach m.ext x → (m.increment p).heap.Reach (m.increment p).ext x := by
    rintro x ⟨q, hq, hqx⟩
    exact ⟨q, by rw [hext]; omega, hpoints ▸ hqx⟩
  have hsound : (m.increment p).heap.Sound (m.increment p).ext [] := by
    refine ⟨fun x => ?_, hs.sized, hs.nodup, hs.roots, fun x => ?_, fun x hx => ?_,
      hs.freeSet, fun x hx => ?_, fun x hx => ?_, fun q hq => (by cases hq), List.nodup_nil,
      fun x hx hzero => .inr ?_, fun x hx => ?_⟩
    · rw [hcolour]
      split
      · exact .inl rfl
      · exact hs.plain x
    · rw [hbuffered]
      exact hs.buffered x
    · rw [hcolour] at hx
      split at hx
      · cases hx
      · exact hs.purple x hx
    · have hbalance := hs.count x hx
      rw [hlive, hinto, hcount, hext]
      split <;> omega
    · have hbalance := hs.dangling x hx
      rw [hlive, hinto, hext, if_neg (by rintro rfl; exact absurd (halloc.symm.trans hx) (by decide))]
      exact hbalance
    · have hxp : x ≠ p := by
        rintro rfl
        rw [hcount, if_pos rfl] at hzero
        omega
      rw [hcount, if_neg hxp, Int.add_zero] at hzero
      rw [hcolour, if_neg hxp]
      exact (hs.dead x hx hzero).resolve_left fun hmem => by cases hmem
    · rw [hlive] at hx ⊢
      rcases hs.led x hx with hr | ⟨q, hql, hq, hqx⟩
      · exact .inl (hreach x hr)
      · rcases eq_or_ne q p with rfl | hqp
        · -- The possible root is referred to, and so is what it leads to.
          obtain ⟨r, hr, hrq⟩ := hp
          exact .inl (hreach x ⟨r, hr, hrq.trans hqx⟩)
        · exact .inr ⟨q, hql, by rw [hcolour, if_neg hqp]; exact hq, hpoints ▸ hqx⟩
  exact balanced_of_sound hrel hsound h.room

theorem store_spec (hi : i < (m.heap.obj p).fields.length) (hvalue : ∀ q, value = some q → 0 < m.ext q)
    (hp : m.Reachable p) (hp' : (m.store p i value).Reachable p) : (m.store p i value).Balanced := by
  have hs := h.sound_ext hrel
  obtain ⟨old, hold⟩ : ∃ old, (m.heap.obj p).fields[i]? = some old := ⟨_, List.getElem?_eq_getElem hi⟩
  have hobj : ∀ x, (m.store p i value).heap.obj x = if x = p then
      { m.heap.obj p with fields := (m.heap.obj p).fields.set i value } else m.heap.obj x := fun x =>
    Function.update_apply _ _ _ _
  have hext : ∀ x, (m.store p i value).ext x =
      m.ext x - (if value = some x then 1 else 0) + (if old = some x then 1 else 0) := fun x => by
    change exchange m.ext value ((m.heap.obj p).fields.getD i none) x = _
    rw [exchange, List.getD_eq_getElem?_getD, hold, Option.getD_some]
  have hne : ∀ {y x}, y ≠ p → ((m.store p i value).heap.Points y x ↔ m.heap.Points y x) := by
    intro y x hy
    rw [Refcount.Points, Refcount.Points, hobj, if_neg hy]
  have hcount : ∀ x, ((m.store p i value).heap.obj x).count = (m.heap.obj x).count := fun x => by
    rw [hobj]
    split
    · next heq => rw [heq]
    · rfl
  have hcolour : ∀ x, ((m.store p i value).heap.obj x).colour = (m.heap.obj x).colour := fun x => by
    rw [hobj]
    split
    · next heq => rw [heq]
    · rfl
  have hbuffered : ∀ x, ((m.store p i value).heap.obj x).buffered = (m.heap.obj x).buffered := fun x => by
    rw [hobj]
    split
    · next heq => rw [heq]
    · rfl
  have hlivep := hs.live_of_reach hp
  have hlive : (m.store p i value).heap.live = m.heap.live := by
    ext x
    rw [Refcount.live, Refcount.live, Finset.mem_filter, Finset.mem_filter, hcount]
    rfl
  -- The exchange leaves the references to every object.
  have hedges : ∀ x, (m.store p i value).heap.edges p x + (if old = some x then 1 else 0) =
      m.heap.edges p x + if value = some x then 1 else 0 := by
    intro x
    have hget : (m.heap.obj p).fields[i] = old := by
      rw [List.getElem?_eq_getElem hi] at hold
      exact Option.some.inj hold
    have hmem : old = some x → 0 < (m.heap.obj p).fields.count (some x) := fun heq =>
      List.count_pos_iff.2 (heq ▸ hget ▸ List.getElem_mem hi)
    rw [Refcount.edges, Refcount.edges, hobj, if_pos rfl, List.count_set hi, hget]
    simp only [beq_iff_eq]
    split
    · next heq =>
      have := hmem heq
      omega
    · omega
  have hbalance : ∀ x, (m.store p i value).ext x + (m.store p i value).heap.into m.heap.live x =
      m.ext x + m.heap.into m.heap.live x := by
    intro x
    have hrest : (m.store p i value).heap.into (m.heap.live.erase p) x =
        m.heap.into (m.heap.live.erase p) x := by
      refine Finset.sum_congr rfl fun y hy => ?_
      rw [Refcount.edges, Refcount.edges, hobj, if_neg (Finset.ne_of_mem_erase hy)]
    rw [hext, Refcount.into_erase hlivep, Refcount.into_erase hlivep, hrest]
    have hedge := hedges x
    split
    · next heq =>
      have := hvalue x heq
      rw [if_pos heq] at hedge
      omega
    · next heq =>
      rw [if_neg heq] at hedge
      omega
  -- What the object pointed to is reached from it still, or from outside.
  have hfield : ∀ z, m.heap.Points p z → (m.store p i value).Reachable z := by
    intro z hz
    by_cases heq : old = some z
    · exact ⟨z, by rw [hext, if_pos heq]; omega, .refl⟩
    · have hedge := hedges z
      have hpos := Refcount.points_iff.1 hz
      rw [if_neg heq] at hedge
      exact Refcount.Reach.tail hp' (Refcount.points_iff.2 (by omega))
  have hreach : ∀ x, m.Reachable x → (m.store p i value).Reachable x := by
    rintro x ⟨q, hq, hqx⟩
    induction hqx with
    | refl =>
      by_cases hv : value = some q
      · refine Refcount.Reach.tail hp' ?_
        rw [Refcount.Points, hobj, if_pos rfl, hv]
        exact List.mem_set hi _
      · exact ⟨q, by rw [hext, if_neg hv]; omega, .refl⟩
    | @tail y z _ hyz ih =>
      by_cases hy : y = p
      · exact hfield z (hy ▸ hyz)
      · exact Refcount.Reach.tail ih ((hne hy).2 hyz)
  have hsound : (m.store p i value).heap.Sound (m.store p i value).ext [] := by
    refine ⟨fun x => ?_, hs.sized, hs.nodup, hs.roots, fun x => ?_, fun x hx => ?_,
      hs.freeSet, fun x hx => ?_, fun x hx => ?_, fun q hq => (by cases hq), List.nodup_nil,
      fun x hx hzero => ?_, fun x hx => ?_⟩
    · rw [hcolour]
      exact hs.plain x
    · rw [hbuffered]
      exact hs.buffered x
    · rw [hcolour] at hx
      exact hs.purple x hx
    · have hsum := hbalance x
      rw [hlive, hcount, hs.count x hx]
      omega
    · rw [hlive, hbalance]
      exact hs.dangling x hx
    · rw [hcount] at hzero
      rw [hcolour]
      exact hs.dead x hx hzero
    · rw [hlive] at hx ⊢
      rcases hs.led x hx with hr | ⟨q, hql, hq, hqx⟩
      · exact .inl (hreach x hr)
      · -- The path does not pass the object, or what it leads to is reached.
        clear hx
        induction hqx with
        | refl => exact .inr ⟨q, hql, by rw [hcolour]; exact hq, .refl⟩
        | @tail y z _ hyz ih =>
          by_cases hy : y = p
          · exact .inl (hfield z (hy ▸ hyz))
          · rcases ih with hr | ⟨r, hrl, hr, hry⟩
            · exact .inl (Refcount.Reach.tail hr ((hne hy).2 hyz))
            · exact .inr ⟨r, hrl, hr, hry.tail ((hne hy).2 hyz)⟩
  exact balanced_of_sound hrel hsound h.room

end Program

/-- Every step of a program keeps the balance, and a collection leaves nothing that the program cannot
reach. -/
theorem Balanced.exec {op : Op} (h : m.Balanced) (hlegal : m.Legal op) (hguard : m.Guarded op) :
    ∃ m', m.exec op = some m' ∧ m'.Balanced ∧
      (op = .collectcycles → ∀ x, m'.heap.allocated x = true → m'.Reachable x) := by
  cases op with
  | create n => exact ⟨_, rfl, create_spec h hlegal n, fun hno => by cases hno⟩
  | store p i value =>
    obtain ⟨hrel, hi, hvalue, hp, hp'⟩ := hlegal
    have hs := h.sound_ext hrel
    have halloc := ((Refcount.mem_live hs).1 (hs.live_of_reach hp)).1
    exact ⟨_, by rw [Machine.exec, if_pos halloc], store_spec h hrel hi hvalue hp hp',
      fun hno => by cases hno⟩
  | increment p =>
    have hs := h.sound_ext hlegal.1
    have halloc := ((Refcount.mem_live hs).1 (hs.live_of_reach hlegal.2)).1
    exact ⟨_, by rw [Machine.exec, if_pos halloc], increment_spec h hlegal.1 hlegal.2,
      fun hno => by cases hno⟩
  | decrement p =>
    obtain ⟨hrel, hp⟩ := hlegal
    have hs := h.sound_ext hrel
    obtain ⟨m', hm', hbalanced⟩ := @decrement_spec
      { m with ext := Function.update m.ext p (m.ext p - 1) } p (by
        have hrefs : (fun x => refs { m with ext := Function.update m.ext p (m.ext p - 1) } x +
            if x = p then 1 else 0) = m.ext := funext fun x => by
          rw [refs, hrel]
          dsimp only
          rw [Function.update_apply, List.flatMap_nil, List.count_nil]
          split
          · next heq =>
            rw [heq]
            omega
          · rfl
        rw [hrefs, hrel]
        exact hs) h.room (fun _ _ _ _ f hf => by
          rw [hrel] at hf
          cases hf)
    exact ⟨m', hm', hbalanced, fun hno => by cases hno⟩
  | collectcycles =>
    have hs := h.sound_ext hlegal
    have hfree : ∀ p ∈ ([] : List Nat), (m.heap.obj p).buffered = false := fun p hp => by cases hp
    obtain ⟨s', hs', hc⟩ := Refcount.collectcycles_spec (hs.ready hfree)
    obtain ⟨hsound, hall⟩ := hs.collected hfree hc
    refine ⟨{ m with heap := s' }, by rw [Machine.exec, hs', Option.map_some],
      balanced_of_sound hlegal hsound (by rw [hc.roots]; decide), fun _ x hx => ?_⟩
    exact (hall x hx).resolve_left fun hmem => by cases hmem
  | walk =>
    obtain ⟨m', hm', hbalanced⟩ := walk_spec h hlegal (hguard rfl)
    exact ⟨m', hm', hbalanced, fun hno => by cases hno⟩

theorem balanced_start : ({} : Machine).Balanced := by
  refine ⟨⟨fun x => .inl rfl, fun x hx => (by cases hx), List.nodup_nil, fun x hx => (by cases hx),
    fun x => ⟨fun hb => (by cases hb), fun hx => by cases hx⟩, fun x hx => (by cases hx), rfl,
    fun x hx => (by cases hx), fun x _ => rfl, fun p hp => (by cases hp), List.nodup_nil,
    fun x hx => (by cases hx), fun x hx => (by cases hx)⟩, by decide⟩

/-- **Runs in which no release fills the buffer of roots while one of its objects is in it: what the program
can reach is never freed, no memory that is not allocated is read or freed, and a collection frees all that
the program cannot reach.** -/
theorem guarded_run_safe (h : Reach exec (fun m op => m.Legal op ∧ m.Guarded op) {} m) :
    (∀ x, m.Reachable x → m.heap.allocated x = true) ∧
    ∀ op, m.Legal op → m.Guarded op → ∃ m', m.exec op = some m' ∧
      (op = .collectcycles → ∀ x, m'.heap.allocated x = true → m'.Reachable x) := by
  have hbalanced : m.Balanced := h.invariant balanced_start fun m op m' hm hok hstep => by
    obtain ⟨m'', hm'', hbalanced, -⟩ := hm.exec hok.1 hok.2
    cases hm''.symm.trans hstep
    exact hbalanced
  refine ⟨fun x hx => ?_, fun op hlegal hguard => ?_⟩
  · obtain ⟨q, hq, hqx⟩ := hx
    have hreach : m.heap.Reach m.refs x := ⟨q, Nat.add_pos_left hq _, hqx⟩
    exact ((Refcount.mem_live hbalanced.sound).1 (hbalanced.sound.live_of_reach hreach)).1
  · obtain ⟨m', hm', -, hcollect⟩ := hbalanced.exec hlegal hguard
    exact ⟨m', hm', hcollect⟩

theorem reachable_of_ext (h : 0 < m.ext x) : m.Reachable x := ⟨x, h, .refl⟩

/-- An object that points to itself, which the program gives up, is collected. -/
theorem guarded_run_safe_cycle : ∃ m m' : Machine,
    run exec {} [.create 1, .increment 0, .store 0 0 (some 0), .decrement 0] = some m ∧
    m.exec .collectcycles = some m' ∧ ∀ x, m'.heap.allocated x = true → m'.Reachable x := by
  let m₁ := ({} : Machine).create 1
  let m₂ := m₁.increment 0
  let m₃ := m₂.store 0 0 (some 0)
  have guarded : ∀ {m : Machine} {op}, op ≠ .walk → m.Guarded op := fun hne hwalk => absurd hwalk hne
  have h₁ : Reach exec (fun m op => m.Legal op ∧ m.Guarded op) {} m₁ :=
    Reach.refl.tail (e := .create 1) ⟨rfl, guarded (by decide)⟩ rfl
  have h₂ : Reach exec (fun m op => m.Legal op ∧ m.Guarded op) {} m₂ :=
    h₁.tail (e := .increment 0) ⟨⟨rfl, reachable_of_ext (by decide)⟩, guarded (by decide)⟩ rfl
  have h₃ : Reach exec (fun m op => m.Legal op ∧ m.Guarded op) {} m₃ :=
    h₂.tail (e := .store 0 0 (some 0)) ⟨⟨rfl, by decide, fun q hq => by cases hq; decide,
      reachable_of_ext (by decide), reachable_of_ext (by decide)⟩, guarded (by decide)⟩ rfl
  have hlegal : m₃.Legal (.decrement 0) := ⟨rfl, by decide⟩
  obtain ⟨m, hm, -⟩ := (guarded_run_safe h₃).2 (.decrement 0) hlegal (guarded (by decide))
  have hrel : m.releasing = [] := by
    have hnone : (m₃.exec (.decrement 0)).map Machine.releasing = some [] := by decide
    rw [hm] at hnone
    exact Option.some.inj hnone
  obtain ⟨m', hm', hall⟩ := (guarded_run_safe (h₃.tail ⟨hlegal, guarded (by decide)⟩ hm)).2 .collectcycles
    hrel (guarded (by decide))
  refine ⟨m, m', ?_, hm', hall rfl⟩
  change (m₃.exec (.decrement 0)).bind some = some m
  rw [hm, Option.bind_some]

/-! ## A full buffer -/

/-- Objects of which `0` points to `1`, and `k` others; all but `1` are in the buffer of roots, and the
program has a reference to each. -/
def filled (k : Nat) : Machine where
  heap :=
    { size := k + 2
      obj := fun x =>
        if x = 0 then ⟨1, true, .purple, [some 1]⟩
        else if x = 1 then ⟨2, false, .black, []⟩
        else if x < k + 2 then ⟨1, true, .purple, []⟩ else ⟨0, false, .black, []⟩
      allocated := fun x => decide (x < k + 2)
      roots := 0 :: List.range' 2 k }
  ext := fun x => if x < k + 2 then 1 else 0

theorem eq_of_parts (hheap : m.heap = m'.heap) (hext : m.ext = m'.ext) (hrel : m.releasing = m'.releasing) :
    m = m' := by
  cases m
  cases m'
  cases hheap
  cases hext
  cases hrel
  rfl

/-- A reference goes to an object that has others and is not in the buffer of roots, which has room. -/
theorem decrement_of_room (halloc : m.heap.allocated p = true) (hmany : 1 < (m.heap.obj p).count)
    (hcolour : (m.heap.obj p).colour ≠ .purple) (hbuffered : (m.heap.obj p).buffered = false)
    (hroom : m.heap.roots.length + 1 ≠ maxRoots) (hfree : m.heap.freeSet = []) :
    m.decrement (some p) = some { m with heap := { m.heap with
      obj := Function.update m.heap.obj p
        ⟨(m.heap.obj p).count - 1, true, .purple, (m.heap.obj p).fields⟩
      roots := m.heap.roots ++ [p] } } := by
  rw [decrement, if_pos halloc]
  simp only [Refcount.addCount_count, if_pos]
  rw [if_neg (by omega), if_neg (by omega), Refcount.possibleRoot, Refcount.addCount_colour, if_pos hcolour]
  simp only [Refcount.setColour_buffered, Refcount.addCount_buffered]
  rw [if_pos hbuffered, Refcount.appendToRoots]
  simp only [Refcount.setBuffered_roots, Refcount.setColour_roots, Refcount.addCount_roots,
    List.length_append, List.length_singleton]
  rw [if_neg hroom, Option.bind_some, Refcount.releaseFreeSet_of_nil (by exact hfree), Option.map_some,
    Option.some_inj]
  refine eq_of_parts (Refcount.ext rfl ?_ rfl rfl rfl) rfl rfl
  simp [Refcount.setBuffered, Refcount.setColour, Refcount.addCount, Refcount.modify, Int.sub_eq_add_neg]

/-- The program makes the first two objects. -/
theorem reach_filled_zero : Reach exec Legal {} (filled 0) := by
  let m₁ := ({} : Machine).create 1
  let m₂ := m₁.create 0
  let m₃ := m₂.increment 1
  let m₄ := m₃.store 0 0 (some 1)
  let m₅ := m₄.increment 0
  have h₁ : Reach exec Legal {} m₁ := Reach.refl.tail (e := .create 1) rfl rfl
  have h₂ : Reach exec Legal {} m₂ := h₁.tail (e := .create 0) rfl rfl
  have h₃ : Reach exec Legal {} m₃ := h₂.tail (e := .increment 1) ⟨rfl, reachable_of_ext (by decide)⟩ rfl
  have h₄ : Reach exec Legal {} m₄ := h₃.tail (e := .store 0 0 (some 1))
    ⟨rfl, by decide, fun q hq => by cases hq; decide, reachable_of_ext (by decide),
      reachable_of_ext (by decide)⟩ rfl
  have h₅ : Reach exec Legal {} m₅ := h₄.tail (e := .increment 0) ⟨rfl, reachable_of_ext (by decide)⟩ rfl
  refine h₅.tail (e := .decrement 0) ⟨rfl, by decide⟩ ?_
  rw [Machine.exec, decrement_of_room (by decide) (by decide) (by decide) (by decide) (by decide) rfl,
    Option.some_inj]
  refine eq_of_parts (Refcount.ext rfl (funext fun x => ?_) (funext fun x => ?_) rfl rfl)
    (funext fun x => ?_) rfl
  · rcases x with _ | _ | x <;> simp [m₅, m₄, m₃, m₂, m₁, increment, store, create, Refcount.modify, filled]
  · rcases x with _ | _ | x <;> simp [m₅, m₄, m₃, m₂, m₁, increment, store, create, Refcount.modify, filled]
  · rcases x with _ | _ | x <;>
      simp [m₅, m₄, m₃, m₂, m₁, increment, store, create, exchange, Refcount.modify, filled]

/-- The program makes another object. -/
theorem reach_filled_succ {k : Nat} (h : Reach exec Legal {} (filled k)) (hk : k + 2 < maxRoots) :
    Reach exec Legal {} (filled (k + 1)) := by
  let m₁ := (filled k).create 0
  let m₂ := m₁.increment (k + 2)
  have hext : 0 < m₁.ext (k + 2) := by simp [m₁, create, filled]
  have halloc : m₁.heap.allocated (k + 2) = true := by simp [m₁, create, filled]
  have h₁ : Reach exec Legal {} m₁ := h.tail (e := .create 0) rfl rfl
  have h₂ : Reach exec Legal {} m₂ := h₁.tail (e := .increment (k + 2)) ⟨rfl, reachable_of_ext hext⟩ (by
    rw [Machine.exec, if_pos halloc])
  refine h₂.tail (e := .decrement (k + 2)) ⟨rfl, by simp [m₂, increment]⟩ ?_
  have hobj : m₂.heap.obj (k + 2) = ⟨2, false, .black, []⟩ := by
    simp [m₂, m₁, increment, create, filled, Refcount.modify]
  have hroom : m₂.heap.roots.length + 1 ≠ maxRoots := by
    simp [m₂, m₁, increment, create, filled, Refcount.modify]
    omega
  refine (decrement_of_room (m := { m₂ with ext := Function.update m₂.ext (k + 2) (m₂.ext (k + 2) - 1) })
    halloc (by rw [hobj]; decide) (by rw [hobj]; decide) (by rw [hobj]) hroom rfl).trans ?_
  rw [Option.some_inj]
  refine eq_of_parts (Refcount.ext rfl (funext fun x => ?_) (funext fun x => ?_) ?_ rfl)
    (funext fun x => ?_) rfl
  · rcases eq_or_ne x (k + 2) with rfl | hx
    · simp [hobj, filled]
    · have hlt : x < k + 1 + 2 ↔ x < k + 2 := by omega
      simp [m₂, m₁, increment, create, Refcount.modify, filled, hx, hlt]
  · rcases eq_or_ne x (k + 2) with rfl | hx
    · simp [m₂, m₁, increment, create, Refcount.modify, filled]
    · have hlt : x < k + 1 + 2 ↔ x < k + 2 := by omega
      simp [m₂, m₁, increment, create, Refcount.modify, filled, hx, hlt]
  · simp [m₂, m₁, increment, create, Refcount.modify, filled, List.range'_concat, Nat.add_comm]
  · rcases eq_or_ne x (k + 2) with rfl | hx
    · simp [m₂, m₁, increment, create, filled]
    · have hlt : x < k + 1 + 2 ↔ x < k + 2 := by omega
      simp [m₂, m₁, increment, create, filled, hx, hlt]

theorem reach_filled {k : Nat} (hk : k + 2 ≤ maxRoots) : Reach exec Legal {} (filled k) := by
  induction k with
  | zero => exact reach_filled_zero
  | succ k ih => exact reach_filled_succ (ih (by omega)) (by omega)

/-- The objects when the release of `0` has come to `1` and the buffer of roots is full. -/
def fullHeap (k : Nat) : Refcount where
  size := k + 2
  obj := fun x =>
    if x = 0 then ⟨0, true, .purple, [some 1]⟩
    else if x < k + 2 then ⟨1, true, .purple, []⟩ else ⟨0, false, .black, []⟩
  allocated := fun x => decide (x < k + 2)
  roots := 0 :: List.range' 2 k ++ [1]

theorem fullHeap_points {k : Nat} (h : (fullHeap k).Points x y) : x = 0 ∧ y = 1 := by
  rcases eq_or_ne x 0 with rfl | hx
  · exact ⟨rfl, by simpa [Refcount.Points, fullHeap] using h⟩
  · rw [Refcount.Points, fullHeap] at h
    simp only [if_neg hx] at h
    split at h <;> cases h

theorem fullHeap_mem_roots {k : Nat} : x ∈ (fullHeap k).roots ↔ x < k + 2 := by
  simp [fullHeap]
  omega

theorem fullHeap_ready (k : Nat) : (fullHeap k).Ready := by
  have hcolour : ∀ x, ((fullHeap k).obj x).colour = if x < k + 2 then .purple else .black := by
    intro x
    rcases eq_or_ne x 0 with rfl | hx
    · simp [fullHeap]
    · rw [fullHeap]
      simp only [if_neg hx]
      split <;> rfl
  refine ⟨fun x => ?_, fun x hx => ?_, ?_, fun x hx => ?_, fun x => ?_, fun x hx => ?_, rfl, fun x hx => ?_,
    fun x hx _ hr => ?_⟩
  · rw [hcolour]
    split
    · exact .inr rfl
    · exact .inl rfl
  · exact of_decide_eq_true hx
  · simp [fullHeap, List.nodup_append, List.nodup_range']
    omega
  · exact decide_eq_true (fullHeap_mem_roots.1 hx)
  · rw [fullHeap_mem_roots]
    rcases eq_or_ne x 0 with rfl | hx
    · simp [fullHeap]
    · rw [fullHeap]
      simp only [if_neg hx]
      split <;> simp_all
  · rw [hcolour] at hx
    rw [fullHeap_mem_roots]
    by_contra hno
    rw [if_neg hno] at hx
    cases hx
  · obtain ⟨r, hr, hrx⟩ := hx
    rcases ReflTransGen.cases_tail hrx with rfl | ⟨y, -, hyx⟩
    · rw [hcolour] at hr
      by_contra hno
      rw [if_neg fun hlt => hno (decide_eq_true hlt)] at hr
      cases hr
    · rw [(fullHeap_points hyx).2]
      exact decide_eq_true (show 1 < k + 2 by omega)
  · rw [hcolour, if_pos (fullHeap_mem_roots.1 hr)] at hx
    cases hx

/-- The collection frees the object `1`: the reference from `0` is taken off its count a second time. -/
theorem fullHeap_collectcycles (k : Nat) :
    ∃ s, (fullHeap k).collectcycles = some s ∧ s.freeSet = [] ∧ s.allocated 1 = false := by
  have hr := fullHeap_ready k
  obtain ⟨s, hs, hc⟩ := Refcount.collectcycles_spec hr
  refine ⟨s, hs, hc.freeSet, Bool.eq_false_of_not_eq_true fun ha => ((hc.allocated 1).1 ha).2.1 ⟨?_, ?_⟩⟩
  · exact ⟨1, by simp [fullHeap], .refl⟩
  · have hpath : ∀ {z}, ReflTransGen (fullHeap k).Points z 1 → z = 0 ∨ z = 1 := by
      intro z hz
      rcases ReflTransGen.cases_head hz with rfl | ⟨y, hzy, -⟩
      · exact .inr rfl
      · exact .inl (fullHeap_points hzy).1
    rintro ⟨z, hz, hlt, hz1⟩
    rcases hpath hz1 with rfl | rfl
    · simp [fullHeap] at hlt
      omega
    · have hmem : 0 ∈ (fullHeap k).suspects :=
        (Refcount.mem_suspects hr).2 ⟨0, by simp [fullHeap], .refl⟩
      have hpos := Refcount.into_pos_iff.2
        ⟨0, hmem, show (fullHeap k).Points 0 1 by simp [Refcount.Points, fullHeap]⟩
      have hcount : ((fullHeap k).obj 1).count = 1 := by simp [fullHeap]
      omega

/-- A release fills the buffer of roots while its object is in it: an object that the program has a
reference to is freed. -/
theorem full_buffer_not_safe : ∃ m, Reach exec Legal {} m ∧
    ∃ x, m.Reachable x ∧ m.heap.allocated x = false := by
  have hk : 1022 + 2 = maxRoots := rfl
  generalize 1022 = k at hk
  let m₁ : Machine :=
    { heap := (filled k).heap.addCount 0 (-1)
      ext := Function.update (filled k).ext 0 ((filled k).ext 0 - 1)
      releasing := [(0, [some 1])] }
  have h₁ : Reach exec Legal {} m₁ := by
    refine (reach_filled hk.le).tail (e := .decrement 0) ⟨rfl, by simp [filled]⟩ ?_
    rw [Machine.exec, decrement]
    simp [filled, m₁]
  obtain ⟨s, hs, hfree, hfreed⟩ := fullHeap_collectcycles k
  have hwalk : m₁.exec .walk = some { m₁ with heap := s, releasing := [(0, [])] } := by
    have hheap : { ((m₁.heap.addCount 1 (-1)).setColour 1 .purple).setBuffered 1 true with
        roots := m₁.heap.roots ++ [1] } = fullHeap k := by
      refine Refcount.ext rfl (funext fun x => ?_) rfl rfl rfl
      rcases x with _ | _ | x <;>
        simp [m₁, filled, fullHeap, Refcount.addCount, Refcount.setColour, Refcount.setBuffered,
          Refcount.modify]
    have hcount : ((m₁.heap.addCount 1 (-1)).obj 1).count = 1 := by simp [m₁, filled]
    have hcolour : ((m₁.heap.addCount 1 (-1)).obj 1).colour ≠ .purple := by simp [m₁, filled]
    have hbuffered : (((m₁.heap.addCount 1 (-1)).setColour 1 .purple).obj 1).buffered = false := by
      simp [m₁, filled]
    have hfull : (fullHeap k).roots.length = maxRoots := by simp [fullHeap, ← hk]
    have hpossible : (m₁.heap.addCount 1 (-1)).possibleRoot 1 = some s := by
      rw [Refcount.possibleRoot, if_pos hcolour]
      dsimp only
      rw [if_pos hbuffered, Refcount.appendToRoots]
      have hcollect : ∀ t, t = fullHeap k →
          (if t.roots.length = maxRoots then t.collectcycles else some t) = some s := by
        rintro t rfl
        rw [if_pos hfull, hs]
      exact hcollect _ hheap
    change (if m₁.heap.allocated 0 = true then decrement { m₁ with releasing := [(0, [])] } (some 1)
      else none) = _
    rw [if_pos (by simp [m₁, filled]), decrement, if_pos (by simp [m₁, filled])]
    dsimp only
    rw [hcount, if_neg (by decide), if_neg (by decide), hpossible, Option.bind_some,
      Refcount.releaseFreeSet_of_nil hfree, Option.map_some]
  refine ⟨_, h₁.tail (e := .walk) (List.cons_ne_nil _ _) hwalk, 1, reachable_of_ext ?_, hfreed⟩
  simp [m₁, filled]

end

end Machine

end OmpSs.Mcxx
