import OmpSs.Lib.Precedence

/-!
# Tracking readers, writers and groups

The argument by which a runtime orders the tasks that access one datum when, besides readers and
writers, there are groups: the members of a group need no order among themselves, but come after
everything earlier and before everything later. The runtime records the last writer, the readers
since then, and the group that is open, which a node `c` of the precedence graph stands for: the
members come before `c`, and `c` is the last writer once the group is closed.

`Guarded` is the invariant. It speaks of the tasks that are `firm`: those that are still to be waited
for. A firm task is held by the record (`Held`), and tasks whose accesses are not compatible are
ordered by the graph. The operations of a runtime on the record are `replace` (a node that comes
after everything recorded takes the place of the last writer), `addReader` and `setGroup`; an access
of the newest task is recorded after one of them. `Guarded.shrink` is the converse: nodes finish, and
the record and the graph may forget what no firm task needs.
-/

namespace OmpSs.Lib

open Relation

/-- How a task accesses the datum: it reads, it writes, or it joins the group of kind `g`. -/
inductive Mode (γ : Type*) where
  | read
  | write
  | group (g : γ)

/-- Two accesses need no order among each other: two reads, or two members of one group. -/
def Mode.Compatible {γ : Type*} : Mode γ → Mode γ → Prop
  | .read, .read => True
  | .group g, .group g' => g = g'
  | _, _ => False

theorem Mode.Compatible.symm {γ : Type*} : ∀ {m m' : Mode γ}, m.Compatible m' → m'.Compatible m
  | .read, .read, _ => trivial
  | .group _, .group _, h => Eq.symm h

/-- What is recorded of the datum: the last writer, the readers since then, and the open group with
the node that stands for it. -/
structure Record (ι γ : Type*) where
  lastWriter : Option ι
  readers : ι → Prop
  group : ι → γ → Prop

section
variable {ι γ : Type*} {E E' : ι → ι → Prop} {firm firm' : ι → Prop} {acc acc' : ι → Mode γ → Prop}
  {T T' : Record ι γ} {c t u w x : ι} {g : γ} {m : Mode γ}

/-- The last writer is `u` or comes after it. -/
def Before (T : Record ι γ) (E : ι → ι → Prop) (u : ι) : Prop :=
  ∃ w, T.lastWriter = some w ∧ ReflTransGen E u w

/-- The access of `u` is held by the record: the last writer is `u` or comes after it, or `u` is
among the readers, or it precedes the open group of its kind. -/
def Held (T : Record ι γ) (E : ι → ι → Prop) (u : ι) : Mode γ → Prop
  | .read => Before T E u ∨ T.readers u
  | .write => Before T E u
  | .group g => Before T E u ∨ ∃ c, T.group c g ∧ ReflTransGen E u c

theorem Before.held (h : Before T E u) : Held T E u m := by
  cases m with
  | read => exact .inl h
  | write => exact h
  | group g => exact .inl h

/-- What the record holds comes before a node that everything in it comes before. -/
theorem Held.reach (h : Held T E u m) (hw : ∀ w, T.lastWriter = some w → ReflTransGen E w x)
    (hr : ∀ r, T.readers r → ReflTransGen E r x)
    (hg : ∀ c g, T.group c g → ReflTransGen E c x) : ReflTransGen E u x := by
  have hbefore : Before T E u → ReflTransGen E u x := by
    intro ⟨w, hlw, huw⟩
    exact huw.trans (hw w hlw)
  cases m with
  | read =>
    rcases h with h | h
    · exact hbefore h
    · exact hr u h
  | write => exact hbefore h
  | group g =>
    rcases h with h | ⟨c, hc, huc⟩
    · exact hbefore h
    · exact huc.trans (hg c g hc)

/-- What the record holds is held by a record that keeps, for `u`, the last writer, the readers and
the group. -/
theorem Held.keep (h : Held T E u m)
    (hw : ∀ w, T.lastWriter = some w → ReflTransGen E u w → Before T' E' u)
    (hr : T.readers u → m = .read → Held T' E' u .read)
    (hg : ∀ c g, T.group c g → ReflTransGen E u c → Held T' E' u (.group g)) :
    Held T' E' u m := by
  have hbefore : Before T E u → Before T' E' u := fun ⟨w, hlw, huw⟩ => hw w hlw huw
  cases m with
  | read =>
    rcases h with h | h
    · exact (hbefore h).held
    · exact hr h rfl
  | write => exact hbefore h
  | group g =>
    rcases h with h | ⟨c, hc, huc⟩
    · exact (hbefore h).held
    · exact hg c g hc huc

/-- The invariant: the accesses of firm tasks are held by the record, accesses that are not
compatible are ordered by the graph, and the readers and the open group, never both, come after the
last writer. -/
structure Guarded [LT ι] (E : ι → ι → Prop) (firm : ι → Prop) (acc : ι → Mode γ → Prop)
    (T : Record ι γ) : Prop where
  held : ∀ u m, firm u → acc u m → Held T E u m
  ordered : ∀ u t mu mt, firm u → u < t → acc u mu → acc t mt → ¬ mu.Compatible mt →
    TransGen E u t
  readAfter : ∀ w r, T.lastWriter = some w → T.readers r → ReflTransGen E w r
  groupAfter : ∀ w c g, T.lastWriter = some w → T.group c g → ReflTransGen E w c
  exclusive : ∀ c g r, T.group c g → ¬ T.readers r

/-! ## The operations on the record -/

/-- The graph grows, and tasks become firm that have not accessed anything yet. -/
theorem Guarded.mono [LT ι] (h : Guarded E firm acc T) (hE : ∀ a b, E a b → E' a b)
    (hfirm : ∀ u, firm' u → firm u ∨ ∀ m, ¬ acc u m) (hw : T'.lastWriter = T.lastWriter)
    (hr : ∀ r, T'.readers r ↔ T.readers r) (hg : ∀ c g, T'.group c g ↔ T.group c g) :
    Guarded E' firm' acc T' where
  held u m hu hum := by
    have hu' := (hfirm u hu).resolve_right fun hno => hno m hum
    refine (h.held u m hu' hum).keep (fun w hlw huw => ⟨w, hw.trans hlw, ReflTransGen.mono hE _ _ huw⟩)
      (fun hur _ => .inr ((hr u).2 hur)) fun c g hc huc => .inr ⟨c, (hg c g).2 hc, ?_⟩
    exact ReflTransGen.mono hE _ _ huc
  ordered u t mu mt hu hut hum htm hconf := by
    have hu' := (hfirm u hu).resolve_right fun hno => hno mu hum
    exact TransGen.mono hE _ _ (h.ordered u t mu mt hu' hut hum htm hconf)
  readAfter w r hlw hrd :=
    ReflTransGen.mono hE _ _ (h.readAfter w r (hw ▸ hlw) ((hr r).1 hrd))
  groupAfter w c g hlw hc :=
    ReflTransGen.mono hE _ _ (h.groupAfter w c g (hw ▸ hlw) ((hg c g).1 hc))
  exclusive c g r hc hrd := h.exclusive c g r ((hg c g).1 hc) ((hr r).1 hrd)

/-- A node that everything recorded comes before takes the place of the record. -/
theorem Guarded.replace [LT ι] (h : Guarded E firm acc T)
    (hw : ∀ w, T.lastWriter = some w → ReflTransGen E w x)
    (hr : ∀ r, T.readers r → ReflTransGen E r x)
    (hg : ∀ c g, T.group c g → ReflTransGen E c x) (hx : T'.lastWriter = some x)
    (hnoread : ∀ r, ¬ T'.readers r) (hnogroup : ∀ c g, ¬ T'.group c g) :
    Guarded E firm acc T' where
  held u m hu hum := Before.held ⟨x, hx, (h.held u m hu hum).reach hw hr hg⟩
  ordered := h.ordered
  readAfter _ r _ hrd := absurd hrd (hnoread r)
  groupAfter _ c g _ hc := absurd hc (hnogroup c g)
  exclusive c g _ hc := absurd hc (hnogroup c g)

/-- A task that comes after the last writer is entered among the readers. -/
theorem Guarded.addReader [LT ι] (h : Guarded E firm acc T) (hnone : ∀ c g, ¬ T.group c g)
    (ht : ∀ w, T.lastWriter = some w → ReflTransGen E w t) (hw : T'.lastWriter = T.lastWriter)
    (hr : ∀ r, T'.readers r ↔ T.readers r ∨ r = t) (hnogroup : ∀ c g, ¬ T'.group c g) :
    Guarded E firm acc T' where
  held u m hu hum :=
    (h.held u m hu hum).keep (fun w hlw huw => ⟨w, hw.trans hlw, huw⟩)
      (fun hur _ => .inr ((hr u).2 (.inl hur))) fun c g hc _ => absurd hc (hnone c g)
  ordered := h.ordered
  readAfter w r hlw hrd := by
    rw [hw] at hlw
    rcases (hr r).1 hrd with hrd | rfl
    · exact h.readAfter w r hlw hrd
    · exact ht w hlw
  groupAfter _ c g _ hc := absurd hc (hnogroup c g)
  exclusive c g _ hc := absurd hc (hnogroup c g)

/-- A group is opened, or stays open, where there are no readers. -/
theorem Guarded.setGroup [LT ι] (h : Guarded E firm acc T) (hnone : ∀ r, ¬ T.readers r)
    (hold : ∀ d k, T.group d k → d = c ∧ k = g)
    (hc : ∀ w, T.lastWriter = some w → ReflTransGen E w c) (hw : T'.lastWriter = T.lastWriter)
    (hr : ∀ r, ¬ T'.readers r) (hgroup : ∀ d k, T'.group d k ↔ d = c ∧ k = g) :
    Guarded E firm acc T' where
  held u m hu hum :=
    (h.held u m hu hum).keep (fun w hlw huw => ⟨w, hw.trans hlw, huw⟩)
      (fun hur _ => absurd hur (hnone u)) fun d k hd hud => .inr ⟨d, (hgroup d k).2 (hold d k hd), hud⟩
  ordered := h.ordered
  readAfter _ r _ hrd := absurd hrd (hr r)
  groupAfter w d k hlw hd := by
    obtain ⟨rfl, rfl⟩ := (hgroup d k).1 hd
    exact hc w (hw ▸ hlw)
  exclusive _ _ r _ := hr r

/-! ## The accesses of the newest task -/

/-- An access of the newest task that the record holds already and that comes after what it is not
compatible with. -/
theorem Guarded.access [Preorder ι] (h : Guarded E firm acc T) (hle : ∀ u m, acc u m → u ≤ t)
    (hself : Held T E t m)
    (hbefore : ∀ u mu, firm u → u < t → acc u mu → ¬ mu.Compatible m → ReflTransGen E u t)
    (hacc : ∀ u k, acc' u k → acc u k ∨ u = t ∧ k = m) : Guarded E firm acc' T where
  held u k hu huk := by
    rcases hacc u k huk with huk | ⟨rfl, rfl⟩
    · exact h.held u k hu huk
    · exact hself
  ordered u v mu mv hu huv hum hvm hconf := by
    rcases hacc u mu hum with hum | ⟨rfl, rfl⟩
    · rcases hacc v mv hvm with hvm | ⟨rfl, rfl⟩
      · exact h.ordered u v mu mv hu huv hum hvm hconf
      · exact transGen_of_reflTransGen_ne (hbefore u mu hu huv hum hconf) (ne_of_lt huv)
    · rcases hacc v mv hvm with hvm | ⟨rfl, -⟩
      · exact absurd huv (not_lt_of_ge (hle v mv hvm))
      · exact absurd huv (lt_irrefl _)
  readAfter := h.readAfter
  groupAfter := h.groupAfter
  exclusive := h.exclusive

/-- The newest task is the last writer and has replaced everything else, so whatever it does comes
after the others. -/
theorem Guarded.accessWriter [Preorder ι] (h : Guarded E firm acc T)
    (hle : ∀ u m, acc u m → u ≤ t) (hlw : T.lastWriter = some t) (hnoread : ∀ r, ¬ T.readers r)
    (hnogroup : ∀ c g, ¬ T.group c g) (hacc : ∀ u k, acc' u k → acc u k ∨ u = t ∧ k = m) :
    Guarded E firm acc' T := by
  refine h.access hle (Before.held ⟨t, hlw, .refl⟩) (fun u mu hu _ hum _ => ?_) hacc
  refine (h.held u mu hu hum).reach (fun w hw => ?_)
    (fun r hr => absurd hr (hnoread r)) fun c g hc => absurd hc (hnogroup c g)
  rw [hlw] at hw
  cases hw
  exact .refl

/-- A further access of a task that has written and still is the last writer. -/
theorem Guarded.accessAgain [Preorder ι] (h : Guarded E firm acc T)
    (hle : ∀ u m, acc u m → u ≤ t) (hlw : T.lastWriter = some t) (hwrote : acc t .write)
    (hacc : ∀ u k, acc' u k → acc u k ∨ u = t ∧ k = m) : Guarded E firm acc' T := by
  refine h.access hle (Before.held ⟨t, hlw, .refl⟩) (fun u mu hu hut hum _ => ?_) hacc
  refine (h.ordered u t mu .write hu hut hum hwrote ?_).to_reflTransGen
  cases mu <;> exact not_false

/-- The newest task has been entered among the readers. -/
theorem Guarded.accessReader [Preorder ι] (h : Guarded E firm acc T)
    (hle : ∀ u m, acc u m → u ≤ t) (hreader : T.readers t)
    (hacc : ∀ u k, acc' u k → acc u k ∨ u = t ∧ k = .read) : Guarded E firm acc' T := by
  refine h.access (m := .read) hle (Or.inr hreader) (fun u mu hu _ hum hconf => ?_) hacc
  have hbefore : Before T E u := by
    cases mu with
    | read => exact absurd trivial hconf
    | write => exact h.held u .write hu hum
    | group g =>
      refine (h.held u (.group g) hu hum).resolve_right fun ⟨c, hc, _⟩ => ?_
      exact h.exclusive c g t hc hreader
  obtain ⟨w, hlw, huw⟩ := hbefore
  exact huw.trans (h.readAfter w t hlw hreader)

/-- The newest task has joined the open group, behind the last writer. -/
theorem Guarded.accessGroup [Preorder ι] (h : Guarded E firm acc T)
    (hle : ∀ u m, acc u m → u ≤ t) (hc : T.group c g) (hkind : ∀ d k, T.group d k → k = g)
    (htc : ReflTransGen E t c) (ht : ∀ w, T.lastWriter = some w → ReflTransGen E w t)
    (hacc : ∀ u k, acc' u k → acc u k ∨ u = t ∧ k = .group g) : Guarded E firm acc' T := by
  refine h.access (m := .group g) hle (Or.inr ⟨c, hc, htc⟩) (fun u mu hu _ hum hconf => ?_) hacc
  have hbefore : Before T E u := by
    cases mu with
    | read => exact (h.held u .read hu hum).resolve_right (h.exclusive c g u hc)
    | write => exact h.held u .write hu hum
    | group k =>
      refine (h.held u (.group k) hu hum).resolve_right fun ⟨d, hd, _⟩ => hconf ?_
      exact hkind d k hd
  obtain ⟨w, hlw, huw⟩ := hbefore
  exact huw.trans (ht w hlw)

/-! ## Completion -/

/-- The graph and the record forget what firm tasks and the last writer do not need. -/
theorem Guarded.shrink [Preorder ι] (h : Guarded E firm acc T) (hfirm : ∀ u, firm' u → firm u)
    (hpath : ∀ u v, firm' u ∨ T'.lastWriter = some u → ReflTransGen E u v → ReflTransGen E' u v)
    (hkeep : ∀ u w, firm' u → T.lastWriter = some w → ReflTransGen E u w → T'.lastWriter = some w)
    (hw : ∀ w, T'.lastWriter = some w → T.lastWriter = some w)
    (hreader : ∀ u, firm' u → T.readers u → acc u .read → T'.readers u ∨ acc u .write)
    (hr : ∀ r, T'.readers r → T.readers r) (hg : ∀ c g, T'.group c g ↔ T.group c g) :
    Guarded E' firm' acc T' := by
  have hbefore : ∀ u w, firm' u → T.lastWriter = some w → ReflTransGen E u w → Before T' E' u :=
    fun u w hu hlw huw => ⟨w, hkeep u w hu hlw huw, hpath u w (.inl hu) huw⟩
  refine ⟨fun u m hu hum => ?_, fun u t mu mt hu hut hum htm hconf => ?_, fun w r hlw hrd => ?_,
    fun w c g hlw hc => ?_, fun c g r hc hrd => h.exclusive c g r ((hg c g).1 hc) (hr r hrd)⟩
  · refine (h.held u m (hfirm u hu) hum).keep (fun w => hbefore u w hu) (fun hur hm => ?_)
      fun c g hc huc => .inr ⟨c, (hg c g).2 hc, hpath u c (.inl hu) huc⟩
    rcases hreader u hu hur (hm ▸ hum) with hur | hwrote
    · exact .inr hur
    · obtain ⟨w, hlw, huw⟩ := h.held u .write (hfirm u hu) hwrote
      exact (hbefore u w hu hlw huw).held
  · have hpre := (h.ordered u t mu mt (hfirm u hu) hut hum htm hconf).to_reflTransGen
    exact transGen_of_reflTransGen_ne (hpath u t (.inl hu) hpre) (ne_of_lt hut)
  · exact hpath w r (.inr hlw) (h.readAfter w r (hw w hlw) (hr r hrd))
  · exact hpath w c (.inr hlw) (h.groupAfter w c g (hw w hlw) ((hg c g).1 hc))

end

end OmpSs.Lib
