import OmpSs.Lib.Precedence

/-!
# Graphs that grow under a node in progress

A precedence graph that is built node by node. At any moment one node `t` is in progress, and some
nodes are open: an open node has no successors yet but may still gain predecessors. `Layered` says
that the other nodes carry a rank that grows along the edges, below a bound; it is kept by every way
such a graph grows: edges into `t`, edges from `t` to an open node, new open nodes, new nodes behind
closed ones, closing an open node that `t` does not precede, and moving on to the next node in
progress. A layered graph is ranked (`IsLayered.exists_rank`), so it has no cycle.
-/

namespace OmpSs.Lib

section
variable {ι : Type*} {E E' : ι → ι → Prop} {live live' opn opn' P : ι → Prop} {t c x : ι}

/-- The nodes but `t` and the open ones are ranked along the edges, below `bound`. -/
structure Layered (E : ι → ι → Prop) (live opn : ι → Prop) (t : ι) (rank : ι → Nat)
    (bound : Nat) : Prop where
  edge : ∀ u v, E u v → opn v ∨ v = t ∨ rank u < rank v
  current : ∀ v, E t v → opn v
  open_succ : ∀ c v, opn c → ¬ E c v
  live_edge : ∀ u v, E u v → live u
  rank_lt : ∀ u, live u → ¬ opn u → u ≠ t → rank u < bound

/-- A graph that is layered for some rank. -/
def IsLayered (E : ι → ι → Prop) (live opn : ι → Prop) (t : ι) : Prop :=
  ∃ rank bound, Layered E live opn t rank bound

/-- Nodes and edges may go away. -/
theorem IsLayered.shrink (h : IsLayered E live opn t) (hE : ∀ u v, E' u v → E u v ∧ live' u)
    (hlive : ∀ u, live' u → live u) (hopen : ∀ u, opn' u ↔ opn u) :
    IsLayered E' live' opn' t := by
  obtain ⟨rank, bound, h⟩ := h
  refine ⟨rank, bound, fun u v huv => ?_, fun v htv => ?_, fun c v hc hcv => ?_,
    fun u v huv => (hE u v huv).2, fun u hu hou => ?_⟩
  · rw [hopen]; exact h.edge u v (hE u v huv).1
  · rw [hopen]; exact h.current v (hE t v htv).1
  · exact h.open_succ c v ((hopen c).1 hc) (hE c v hcv).1
  · exact h.rank_lt u (hlive u hu) (fun ho => hou ((hopen u).2 ho))

/-- The node in progress appears. -/
theorem IsLayered.start (h : IsLayered E live opn t) (hlive : ∀ u, live' u ↔ live u ∨ u = t) :
    IsLayered E live' opn t := by
  obtain ⟨rank, bound, h⟩ := h
  refine ⟨rank, bound, h.edge, h.current, h.open_succ,
    fun u v huv => (hlive u).2 (.inl (h.live_edge u v huv)), fun u hu hou hut => ?_⟩
  exact h.rank_lt u (((hlive u).1 hu).resolve_right hut) hou hut

/-- The node in progress gains predecessors. -/
theorem IsLayered.into (h : IsLayered E live opn t)
    (hE : ∀ u v, E' u v → E u v ∨ (live u ∧ ¬ opn u ∧ u ≠ t) ∧ v = t) : IsLayered E' live opn t := by
  obtain ⟨rank, bound, h⟩ := h
  refine ⟨rank, bound, fun u v huv => ?_, fun v htv => ?_, fun c v hc hcv => ?_,
    fun u v huv => ?_, h.rank_lt⟩
  · rcases hE u v huv with huv | ⟨-, rfl⟩
    · exact h.edge u v huv
    · exact .inr (.inl rfl)
  · rcases hE t v htv with htv | ⟨⟨-, -, hne⟩, -⟩
    · exact h.current v htv
    · exact absurd rfl hne
  · rcases hE c v hcv with hcv | ⟨⟨-, hnot, -⟩, -⟩
    · exact h.open_succ c v hc hcv
    · exact hnot hc
  · rcases hE u v huv with huv | ⟨⟨hu, -⟩, -⟩
    · exact h.live_edge u v huv
    · exact hu

/-- The node in progress comes to precede an open node. -/
theorem IsLayered.out (h : IsLayered E live opn t) (ht : live t) (hot : ¬ opn t) (hc : opn c)
    (hE : ∀ u v, E' u v → E u v ∨ u = t ∧ v = c) : IsLayered E' live opn t := by
  obtain ⟨rank, bound, h⟩ := h
  refine ⟨rank, bound, fun u v huv => ?_, fun v htv => ?_, fun d v hd hdv => ?_,
    fun u v huv => ?_, h.rank_lt⟩
  · rcases hE u v huv with huv | ⟨-, rfl⟩
    · exact h.edge u v huv
    · exact .inl hc
  · rcases hE t v htv with htv | ⟨-, rfl⟩
    · exact h.current v htv
    · exact hc
  · rcases hE d v hdv with hdv | ⟨rfl, -⟩
    · exact h.open_succ d v hd hdv
    · exact hot hd
  · rcases hE u v huv with huv | ⟨rfl, -⟩
    · exact h.live_edge u v huv
    · exact ht

/-- A new open node without edges. -/
theorem IsLayered.newOpen (h : IsLayered E live opn t) (hc : ∀ v, ¬ E c v)
    (hlive : ∀ u, live' u ↔ live u ∨ u = c) (hopen : ∀ u, opn' u ↔ opn u ∨ u = c) :
    IsLayered E live' opn' t := by
  obtain ⟨rank, bound, h⟩ := h
  refine ⟨rank, bound, fun u v huv => ?_, fun v htv => ?_, fun d v hd hdv => ?_,
    fun u v huv => (hlive u).2 (.inl (h.live_edge u v huv)), fun u hu hou hut => ?_⟩
  · exact (h.edge u v huv).imp_left fun hv => (hopen v).2 (.inl hv)
  · exact (hopen v).2 (.inl (h.current v htv))
  · rcases (hopen d).1 hd with hd | rfl
    · exact h.open_succ d v hd hdv
    · exact hc v hdv
  · rw [hopen] at hou
    push Not at hou
    exact h.rank_lt u (((hlive u).1 hu).resolve_right hou.2) hou.1 hut

open Classical in
/-- An open node that the node in progress does not precede is closed: it gets the next rank. -/
theorem IsLayered.close (h : IsLayered E live opn t) (hc : opn c) (htc : ¬ E t c)
    (hopen : ∀ u, opn' u ↔ opn u ∧ u ≠ c) : IsLayered E live opn' t := by
  obtain ⟨rank, bound, h⟩ := h
  refine ⟨fun u => if u = c then bound else rank u, bound + 1, fun u v huv => ?_, fun v htv => ?_,
    fun d v hd hdv => h.open_succ d v ((hopen d).1 hd).1 hdv, h.live_edge, fun u hu hou hut => ?_⟩
  · have huo : ¬ opn u := fun ho => h.open_succ u v ho huv
    have huc : u ≠ c := fun huc => huo (huc ▸ hc)
    rw [if_neg huc]
    by_cases hvc : v = c
    · subst hvc
      rw [if_pos rfl]
      exact .inr (.inr (h.rank_lt u (h.live_edge u v huv) huo fun hut => htc (hut ▸ huv)))
    · rw [if_neg hvc]
      exact (h.edge u v huv).imp_left fun hv => (hopen v).2 ⟨hv, hvc⟩
  · exact (hopen v).2 ⟨h.current v htv, fun hvc => htc (hvc ▸ htv)⟩
  · split
    · omega
    · next huc =>
      have := h.rank_lt u hu (fun ho => hou ((hopen u).2 ⟨ho, huc⟩)) hut
      omega

open Classical in
/-- A new node behind closed ones gets the next rank. -/
theorem IsLayered.newNode (h : IsLayered E live opn t) (hx : ∀ v, ¬ E x v ∧ ¬ E v x)
    (hlive : ∀ u, live' u ↔ live u ∨ u = x)
    (hE : ∀ u v, E' u v → E u v ∨ (live u ∧ ¬ opn u ∧ u ≠ t ∧ u ≠ x) ∧ v = x) :
    IsLayered E' live' opn t := by
  obtain ⟨rank, bound, h⟩ := h
  refine ⟨fun u => if u = x then bound else rank u, bound + 1, fun u v huv => ?_, fun v htv => ?_,
    fun d v hd hdv => ?_, fun u v huv => ?_, fun u hu hou hut => ?_⟩
  · rcases hE u v huv with huv | ⟨⟨hu, huo, hut, hux⟩, rfl⟩
    · have hux : u ≠ x := fun hux => (hx v).1 (hux ▸ huv)
      have hvx : v ≠ x := fun hvx => (hx u).2 (hvx ▸ huv)
      rw [if_neg hux, if_neg hvx]
      exact h.edge u v huv
    · rw [if_neg hux, if_pos rfl]
      exact .inr (.inr (h.rank_lt u hu huo hut))
  · rcases hE t v htv with htv | ⟨⟨-, -, hut, -⟩, -⟩
    · exact h.current v htv
    · exact absurd rfl hut
  · rcases hE d v hdv with hdv | ⟨⟨-, hnot, -⟩, -⟩
    · exact h.open_succ d v hd hdv
    · exact hnot hd
  · rcases hE u v huv with huv | ⟨⟨hu, -⟩, -⟩
    · exact (hlive u).2 (.inl (h.live_edge u v huv))
    · exact (hlive u).2 (.inl hu)
  · split
    · omega
    · next hux =>
      have := h.rank_lt u (((hlive u).1 hu).resolve_right hux) hou hut
      omega

open Classical in
/-- The node in progress is done and gets the next rank; `x` is the next one. -/
theorem IsLayered.next (h : IsLayered E live opn t) (hot : ¬ opn t) (hx : ∀ v, ¬ E x v) :
    IsLayered E live opn x := by
  obtain ⟨rank, bound, h⟩ := h
  refine ⟨fun u => if u = t then bound else rank u, bound + 1, fun u v huv => ?_,
    fun v hxv => absurd hxv (hx v), h.open_succ, h.live_edge, fun u hu hou _ => ?_⟩
  · have huo : ¬ opn u := fun ho => h.open_succ u v ho huv
    by_cases hut : u = t
    · subst hut; exact .inl (h.current v huv)
    · rw [if_neg hut]
      rcases h.edge u v huv with hv | rfl | hlt
      · exact .inl hv
      · rw [if_pos rfl]
        exact .inr (.inr (h.rank_lt u (h.live_edge u v huv) huo hut))
      · split
        · exact .inr (.inr (h.rank_lt u (h.live_edge u v huv) huo hut))
        · exact .inr (.inr hlt)
  · split
    · omega
    · next hut => have := h.rank_lt u hu hou hut; omega

open Classical in
/-- A layered graph whose node in progress has no edges is ranked: open nodes come last. -/
theorem IsLayered.exists_rank (h : IsLayered E live opn t) (ht : ∀ v, ¬ E v t ∧ ¬ E t v) :
    ∃ r : ι → Nat, ∀ u v, E u v → r u < r v := by
  obtain ⟨rank, bound, h⟩ := h
  refine ⟨fun u => if opn u then bound else rank u, fun u v huv => ?_⟩
  have huo : ¬ opn u := fun ho => h.open_succ u v ho huv
  have hut : u ≠ t := fun hut => (ht v).2 (hut ▸ huv)
  have hub := h.rank_lt u (h.live_edge u v huv) huo hut
  simp only [if_neg huo]
  split
  · exact hub
  · next hv =>
    rcases h.edge u v huv with ho | rfl | hlt
    · exact absurd ho hv
    · exact absurd huv (ht u).1
    · exact hlt

end

end OmpSs.Lib
