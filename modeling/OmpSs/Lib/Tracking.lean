import OmpSs.Lib.Precedence

/-!
# Tracking conflicting accesses

The general argument by which a runtime orders tasks that access common data. Tasks `ι` access
points `α`, each access reading or writing; a precedence graph `E` orders the unfinished tasks. The
runtime does not remember accesses: it keeps trackers `κ`, each standing for a set of points, with a
last writer and the readers since. A task is covered at a point (`Covers`) when some tracker of the
point has it among its readers or has a last writer that comes after it. `Safe` is the invariant:
unfinished tasks are covered where they access, and conflicting tasks are ordered by the graph. It
is kept by an access of the newest task (`Safe.access`) and by the completion of a task that nothing
precedes (`Safe.finish`), whatever the trackers are.
-/

namespace OmpSs.Lib

open Relation

/-- The state of the trackers: the points each one stands for, its last writer and its readers. -/
structure Tracker (ι κ α : Type*) where
  cov : κ → α → Prop
  lastWriter : κ → Option ι
  readers : κ → ι → Prop

section
variable {ι κ κ' α : Type*} {E E' : ι → ι → Prop} {live live' : ι → Prop}
  {acc acc' : ι → α → Bool → Prop} {T : Tracker ι κ α} {T' : Tracker ι κ' α} {t u w : ι} {x : α}
  {writes : Bool}

/-- The access of `u` to `x` is covered: some tracker of `x` has a last writer that is `u` or comes
after it, or has `u` among its readers and `u` only reads. -/
def Covers (T : Tracker ι κ α) (E : ι → ι → Prop) (u : ι) (x : α) (writes : Bool) : Prop :=
  ∃ k, T.cov k x ∧ ((∃ w, T.lastWriter k = some w ∧ ReflTransGen E u w) ∨
    writes = false ∧ T.readers k u)

theorem Covers.of_writer {k : κ} (hk : T.cov k x) (hw : T.lastWriter k = some w)
    (hu : ReflTransGen E u w) : Covers T E u x writes :=
  ⟨k, hk, .inl ⟨w, hw, hu⟩⟩

theorem Covers.of_reader {k : κ} (hk : T.cov k x) (hu : T.readers k u) : Covers T E u x false :=
  ⟨k, hk, .inr ⟨rfl, hu⟩⟩

/-- The invariant. Among two conflicting tasks of which the earlier one is unfinished, the later one
is unfinished and comes after it in the graph. -/
structure Safe [LT ι] (E : ι → ι → Prop) (live : ι → Prop) (acc : ι → α → Bool → Prop)
    (T : Tracker ι κ α) : Prop where
  covered : ∀ u x writes, live u → acc u x writes → Covers T E u x writes
  ordered : ∀ u t x wu wt, live u → u < t → acc u x wu → acc t x wt → (wu || wt) = true →
    live t ∧ TransGen E u t

/-- An access of the newest task `t` to the points `R`. What it conflicts with must come before it,
what was covered must stay covered, and the access itself must be covered. -/
theorem Safe.access [Preorder ι] {R : α → Prop} {wt : Bool} (h : Safe E live acc T)
    (hE : ∀ u v, E u v → E' u v) (hlive : ∀ u, live' u ↔ live u) (ht : live t)
    (hnew : ∀ u x writes, acc u x writes → u ≤ t)
    (hreach : ∀ u x wu, live u → u < t → R x → (wu || wt) = true → Covers T E u x wu →
      ReflTransGen E' u t)
    (hkeep : ∀ u x wu, live u → Covers T E u x wu → Covers T' E' u x wu)
    (hself : ∀ x, R x → Covers T' E' t x wt)
    (hacc : ∀ u x writes, acc' u x writes → acc u x writes ∨ u = t ∧ R x ∧ writes = wt) :
    Safe E' live' acc' T' where
  covered u x writes hu hux := by
    rw [hlive] at hu
    rcases hacc u x writes hux with hux | ⟨rfl, hx, rfl⟩
    · exact hkeep u x writes hu (h.covered u x writes hu hux)
    · exact hself x hx
  ordered u v x wu wv hu huv hux hvx hconf := by
    rw [hlive] at hu ⊢
    rcases hacc v x wv hvx with hvx | ⟨rfl, hx, rfl⟩
    · rcases hacc u x wu hux with hux | ⟨rfl, -, -⟩
      · obtain ⟨h1, h2⟩ := h.ordered u v x wu wv hu huv hux hvx hconf
        exact ⟨h1, TransGen.mono hE _ _ h2⟩
      · exact absurd huv (not_lt_of_ge (hnew v x wv hvx))
    · rcases hacc u x wu hux with hux | ⟨rfl, -, -⟩
      · refine ⟨ht, transGen_of_reflTransGen_ne ?_ (ne_of_lt huv)⟩
        exact hreach u x wu hu huv hx hconf (h.covered u x wu hu hux)
      · exact absurd huv (lt_irrefl _)

/-- An access of the newest task `t` that keeps the trackers. Each keeps its last writer and its readers,
except where the access writes: there all that was covered comes before the task. -/
theorem Safe.access_of_kept [Preorder ι] {R : α → Prop} {wt : Bool} {T' : Tracker ι κ α}
    (h : Safe E live acc T) (hE : ∀ u v, E u v → E' u v) (hlive : ∀ u, live' u ↔ live u) (ht : live t)
    (hnew : ∀ u x writes, acc u x writes → u ≤ t)
    (hreach : ∀ u x wu, live u → R x → (wu || wt) = true → Covers T E u x wu → ReflTransGen E' u t)
    (hkept : ∀ k x, T.cov k x → R x ∧ wt = true ∨
      T'.cov k x ∧ T'.lastWriter k = T.lastWriter k ∧ ∀ u, T.readers k u → T'.readers k u)
    (hself : ∀ x, R x → Covers T' E' t x wt)
    (hacc : ∀ u x writes, acc' u x writes → acc u x writes ∨ u = t ∧ R x ∧ writes = wt) :
    Safe E' live' acc' T' := by
  refine h.access hE hlive ht hnew (fun u x wu hu _ => hreach u x wu hu) (fun u x wu hu hcov => ?_)
    hself hacc
  obtain ⟨k, hk, hrec⟩ := id hcov
  rcases hkept k x hk with ⟨hx, rfl⟩ | ⟨hk', hwriter, hreaders⟩
  · obtain ⟨k', hk', ⟨w, hw, hwt⟩ | ⟨hfalse, -⟩⟩ := hself x hx
    · exact Covers.of_writer hk' hw ((hreach u x wu hu hx (Bool.or_true wu) hcov).trans hwt)
    · cases hfalse
  · rcases hrec with ⟨w, hw, huw⟩ | ⟨rfl, hr⟩
    · exact Covers.of_writer hk' (hwriter.trans hw) (ReflTransGen.mono hE _ _ huw)
    · exact Covers.of_reader hk' (hreaders u hr)

/-- Other trackers that cover what these cover, for some of the accesses. -/
theorem Safe.weaken [LT ι] (h : Safe E live acc T) (hacc : ∀ u x writes, acc' u x writes → acc u x writes)
    (hcov : ∀ u x writes, live u → Covers T E u x writes → Covers T' E u x writes) :
    Safe E live acc' T' where
  covered u x writes hu hux := hcov u x writes hu (h.covered u x writes hu (hacc u x writes hux))
  ordered u v x wu wv hu huv hux hvx hconf :=
    h.ordered u v x wu wv hu huv (hacc u x wu hux) (hacc v x wv hvx) hconf

/-- A new task that has not accessed anything yet. -/
theorem Safe.start [LT ι] (h : Safe E live acc T) (hE : ∀ u v, E u v → E' u v)
    (hlive : ∀ u, live' u → live u ∨ ∀ x writes, ¬ acc u x writes)
    (hlive' : ∀ u, live u → live' u) : Safe E' live' acc T where
  covered u x writes hu hux := by
    have hu' := (hlive u hu).resolve_right fun hno => hno x writes hux
    obtain ⟨k, hk, ⟨w, hw, huw⟩ | hr⟩ := h.covered u x writes hu' hux
    · exact ⟨k, hk, .inl ⟨w, hw, ReflTransGen.mono hE _ _ huw⟩⟩
    · exact ⟨k, hk, .inr hr⟩
  ordered u v x wu wv hu huv hux hvx hconf := by
    have hu' := (hlive u hu).resolve_right fun hno => hno x wu hux
    obtain ⟨h1, h2⟩ := h.ordered u v x wu wv hu' huv hux hvx hconf
    exact ⟨hlive' v h1, TransGen.mono hE _ _ h2⟩

/-- A task that nothing precedes finishes: its edges go, and the trackers may forget it. -/
theorem Safe.finish [LT ι] {T' : Tracker ι κ α} (h : Safe E live acc T) {z : ι}
    (hz : ∀ u, ¬ E u z) (hE : ∀ u v, E u v → u ≠ z → E' u v)
    (hlive : ∀ u, live' u ↔ live u ∧ u ≠ z) (hcov : ∀ k x, T.cov k x → T'.cov k x)
    (hwriter : ∀ k w, T.lastWriter k = some w → w ≠ z → T'.lastWriter k = some w)
    (hreader : ∀ k u, T.readers k u → u ≠ z → T'.readers k u) : Safe E' live' acc T' where
  covered u x writes hu hux := by
    obtain ⟨hu, hne⟩ := (hlive u).1 hu
    obtain ⟨k, hk, ⟨w, hw, huw⟩ | ⟨hr, hur⟩⟩ := h.covered u x writes hu hux
    · have hwz : w ≠ z := by
        rintro rfl
        exact hne (eq_of_reflTransGen_source hz huw)
      exact ⟨k, hcov k x hk, .inl ⟨w, hwriter k w hw hwz, reflTransGen_avoid hz hE huw hne⟩⟩
    · exact ⟨k, hcov k x hk, .inr ⟨hr, hreader k u hur hne⟩⟩
  ordered u v x wu wv hu huv hux hvx hconf := by
    obtain ⟨hu, hne⟩ := (hlive u).1 hu
    obtain ⟨h1, h2⟩ := h.ordered u v x wu wv hu huv hux hvx hconf
    have hvz : v ≠ z := by
      rintro rfl
      obtain ⟨w, hw⟩ := exists_edge_of_transGen h2
      exact hz w hw
    exact ⟨(hlive v).2 ⟨h1, hvz⟩, transGen_avoid hz hE h2 hne⟩

end

end OmpSs.Lib
