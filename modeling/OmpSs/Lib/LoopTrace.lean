import OmpSs.Lib.CountedLoop

/-!
# What a loop does

A loop tests its variable, runs its body and moves the variable on. Each of the three may be undefined, as an
addition that overflows is. `LoopTrace test body next v out w` says that the loop started at `v` comes to its
end: its bodies leave the list `out`, and its variable is left at `w`. A loop has at most one such trace
(`LoopTrace.unique`), and the counted loop over exact integers has the one of `loopTrace_iterations`.

`exists_unrolled_iff` is the rule for unrolling: a loop whose body does the work of `f` rounds, followed by
the original loop from where that one stopped, leaves what the original leaves exactly when the former comes
to its end after full blocks of `f` rounds, each of which leaves what the original leaves in these rounds.
A body may also jump, to the next round or out of the loop. A `FlowTrace` runs its copies one after the other and
keeps what they have read; without jumps it is a `LoopTrace` (`flowTrace_iff_of_completes`).
`visits_iterations_iff` says when a loop whose test and increment are anything runs its body for the values of
a counted loop; where it takes the steps of the counted loop it has them in that order, if it has them in any
(`eq_iterations_of_visits`).
-/

namespace OmpSs.Lib

/-- Started at the value, the loop ends with this output and this value of its variable. -/
inductive LoopTrace {σ τ : Type*} (test : σ → Option Bool) (body : σ → Option (List τ))
    (next : σ → Option σ) : σ → List τ → σ → Prop
  | stop {v : σ} : test v = some false → LoopTrace test body next v [] v
  | step {v u w : σ} {out rest : List τ} : test v = some true → body v = some out → next v = some u →
      LoopTrace test body next u rest w → LoopTrace test body next v (out ++ rest) w

section
variable {σ τ : Type*} {test : σ → Option Bool} {body : σ → Option (List τ)} {next : σ → Option σ}
  {v w w' : σ} {out out' : List τ}

/-- The output and the last value are determined by the first value. -/
theorem LoopTrace.unique (h : LoopTrace test body next v out w) (h' : LoopTrace test body next v out' w') :
    out = out' ∧ w = w' := by
  induction h generalizing out' with
  | stop htest =>
    cases h' with
    | stop => exact ⟨rfl, rfl⟩
    | step htest' => exact absurd (htest.symm.trans htest') (by decide)
  | step htest hbody hnext _ ih =>
    cases h' with
    | stop htest' => exact absurd (htest.symm.trans htest') (by decide)
    | step _ hbody' hnext' hrest' =>
      obtain rfl := Option.some.inj (hbody.symm.trans hbody')
      obtain rfl := Option.some.inj (hnext.symm.trans hnext')
      obtain ⟨rfl, rfl⟩ := ih hrest'
      exact ⟨rfl, rfl⟩

/-- The last value fails the test. -/
theorem LoopTrace.test_eq_false (h : LoopTrace test body next v out w) : test w = some false := by
  induction h with
  | stop htest => exact htest
  | step _ _ _ _ ih => exact ih

/-- A loop that makes `n` rounds through the values `f 0, .., f n`. -/
theorem LoopTrace.of_forall_lt {f : ℕ → σ} {g : ℕ → List τ} {n : ℕ}
    (htest : ∀ k < n, test (f k) = some true) (hbody : ∀ k < n, body (f k) = some (g k))
    (hnext : ∀ k < n, next (f k) = some (f (k + 1))) (hend : test (f n) = some false) :
    LoopTrace test body next (f 0) ((List.range n).flatMap g) (f n) := by
  induction n generalizing f g with
  | zero => exact .stop hend
  | succ n ih =>
    rw [List.range_succ_eq_map, List.flatMap_cons, List.flatMap_map]
    refine .step (htest 0 n.succ_pos) (hbody 0 n.succ_pos) (hnext 0 n.succ_pos) ?_
    exact ih (f := fun k => f (k + 1)) (g := fun k => g (k + 1))
      (fun k hk => htest _ (Nat.succ_lt_succ hk)) (fun k hk => hbody _ (Nat.succ_lt_succ hk))
      (fun k hk => hnext _ (Nat.succ_lt_succ hk)) hend

end

/-! ## Unrolling -/

theorem flatMap_range'_mul (f J : ℕ) :
    ((List.range J).flatMap fun j => List.range' (j * f) f) = List.range' 0 (J * f) := by
  induction J with
  | zero => simp
  | succ J ih =>
    rw [List.range_succ, List.flatMap_append, ih, List.flatMap_singleton, Nat.succ_mul,
      ← List.range'_append_1, Nat.zero_add]

/-- A loop that is done in blocks of `f` out of `n` rounds stops after some full blocks, each of which does
what it should. -/
def Blocks (enter : ℕ → Option Bool) (ok : ℕ → Prop) (f n : ℕ) : Prop :=
  ∃ J, J * f ≤ n ∧ (∀ j < J, enter j = some true ∧ ok j) ∧ enter J = some false

section
variable {enter : ℕ → Option Bool} {ok : ℕ → Prop} {f n : ℕ}

theorem blocks_of_stop (h : enter 0 = some false) : Blocks enter ok f n :=
  ⟨0, by simp, fun _ hj => absurd hj (Nat.not_lt_zero _), h⟩

theorem Blocks.congr_ok {ok' : ℕ → Prop} (h : ∀ j, (j + 1) * f ≤ n → (ok j ↔ ok' j)) :
    Blocks enter ok f n ↔ Blocks enter ok' f n :=
  exists_congr fun _ => and_congr_right fun hJ => and_congr_left fun _ => forall₂_congr fun j hj =>
    and_congr_right fun _ => h j ((Nat.mul_le_mul_right f hj).trans hJ)

/-- The test goes through exactly where there is a full block. -/
theorem blocks_iff_of_exact (hf : 0 < f)
    (h : ∀ j, j * f ≤ n → enter j = some (decide ((j + 1) * f ≤ n))) :
    Blocks enter ok f n ↔ ∀ j, (j + 1) * f ≤ n → ok j := by
  constructor
  · rintro ⟨J, hJ, hblocks, hend⟩ j hj
    have hlast : ¬ (J + 1) * f ≤ n := by
      rw [h J hJ] at hend
      exact of_decide_eq_false (Option.some.inj hend)
    have hlt : j < J := by
      by_contra hle
      exact hlast ((Nat.mul_le_mul_right f (by omega)).trans hj)
    exact (hblocks j hlt).2
  · intro hok
    have hle : n / f * f ≤ n := Nat.div_mul_le_self n f
    refine ⟨n / f, hle, fun j hj => ?_, ?_⟩
    · have hj' : (j + 1) * f ≤ n := (Nat.mul_le_mul_right f hj).trans hle
      refine ⟨?_, hok j hj'⟩
      rw [h j ((Nat.mul_le_mul_right f j.le_succ).trans hj'), decide_eq_true hj']
    · rw [h _ hle, decide_eq_false (not_le.2 ?_)]
      rw [Nat.mul_comm]
      exact Nat.lt_mul_div_succ n hf

/-- Once the test goes through it never stops. -/
theorem blocks_iff_of_runs_on
    (h : ∀ J, 0 < J → J * f ≤ n → enter 0 = some true → (∀ j < J, ok j) → enter J = some true) :
    Blocks enter ok f n ↔ enter 0 = some false := by
  refine ⟨?_, blocks_of_stop⟩
  rintro ⟨J, hJ, hblocks, hend⟩
  rcases Nat.eq_zero_or_pos J with rfl | hpos
  · exact hend
  · have hon := h J hpos hJ (hblocks 0 hpos).1 fun j hj => (hblocks j hj).2
    rw [hon] at hend
    cases hend

end

section
variable {σ τ : Type*} {test test' : σ → Option Bool} {body body' : σ → Option (List τ)}
  {next next' : σ → Option σ} {v : ℕ → σ} {out : ℕ → τ} {n f : ℕ}

/-- The original loop from its `m`-th round on. -/
theorem loopTrace_of_le {m : ℕ} (hm : m ≤ n) (htest : ∀ k < n, test (v k) = some true)
    (hbody : ∀ k < n, body (v k) = some [out k]) (hnext : ∀ k < n, next (v k) = some (v (k + 1)))
    (hend : test (v n) = some false) :
    LoopTrace test body next (v m) ((List.range' m (n - m)).map out) (v n) := by
  have htrace := LoopTrace.of_forall_lt (n := n - m) (f := fun k => v (m + k)) (g := fun k => [out (m + k)])
    (fun k hk => htest _ (by omega)) (fun k hk => hbody _ (by omega)) (fun k hk => hnext _ (by omega))
    (by rwa [Nat.add_sub_cancel' hm])
  rw [Nat.add_sub_cancel' hm] at htrace
  rw [List.range'_eq_map_range, List.map_map, List.map_eq_flatMap]
  exact htrace

/-- What the unrolled loop leaves from its `j`-th block on: blocks of the original, up to one at which it
stops. -/
theorem LoopTrace.blocks (hlength : ∀ x l, body' x = some l → l.length = f)
    (hnext : ∀ j, (j + 1) * f ≤ n → next' (v (j * f)) = some (v ((j + 1) * f))) {x u : σ}
    {out₁ out₂ : List τ} (htrace : LoopTrace test' body' next' x out₁ u) :
    ∀ {j : ℕ}, x = v (j * f) → j * f ≤ n → out₁ ++ out₂ = (List.range' (j * f) (n - j * f)).map out →
      ∃ J, j ≤ J ∧ J * f ≤ n ∧ (∀ k, j ≤ k → k < J → test' (v (k * f)) = some true ∧
        body' (v (k * f)) = some ((List.range' (k * f) f).map out)) ∧ test' (v (J * f)) = some false := by
  induction htrace with
  | stop htest =>
    rintro j rfl hj -
    exact ⟨j, le_rfl, hj, fun k hjk hk => absurd hk (Nat.not_lt.2 hjk), htest⟩
  | step htest hbody hstep _ ih =>
    rename_i u w block rest _
    rintro j rfl hj hout
    have hblock : block.length = f := hlength _ _ hbody
    have hle : (j + 1) * f ≤ n := by
      have hlen := congrArg List.length hout
      simp only [List.length_append, List.length_map, List.length_range'] at hlen
      rw [Nat.succ_mul]
      omega
    have hsplit : (List.range' (j * f) (n - j * f)).map out =
        (List.range' (j * f) f).map out ++
          (List.range' ((j + 1) * f) (n - (j + 1) * f)).map out := by
      rw [← List.map_append, Nat.succ_mul, List.range'_append_1]
      congr 2
      rw [Nat.succ_mul] at hle
      omega
    rw [List.append_assoc, hsplit] at hout
    obtain ⟨rfl, hrest⟩ := List.append_inj hout (by rw [hblock, List.length_map, List.length_range'])
    obtain rfl := Option.some.inj (hstep.symm.trans (hnext j hle))
    obtain ⟨J, hjJ, hJ, hblocks, hend⟩ := ih rfl hle hrest
    refine ⟨J, by omega, hJ, fun k hjk hk => ?_, hend⟩
    rcases Nat.eq_or_lt_of_le hjk with rfl | hjk
    · exact ⟨htest, hbody⟩
    · exact hblocks k hjk hk

/-- **Unrolling**: a loop with a body for `f` rounds, then the original loop. -/
theorem exists_unrolled_iff (htest : ∀ k < n, test (v k) = some true)
    (hbody : ∀ k < n, body (v k) = some [out k]) (hnext : ∀ k < n, next (v k) = some (v (k + 1)))
    (hend : test (v n) = some false) (hlength : ∀ x l, body' x = some l → l.length = f)
    (hnext' : ∀ j, (j + 1) * f ≤ n → next' (v (j * f)) = some (v ((j + 1) * f))) :
    (∃ out₁ u out₂ w, LoopTrace test' body' next' (v 0) out₁ u ∧ LoopTrace test body next u out₂ w ∧
        out₁ ++ out₂ = (List.range n).map out) ↔
      Blocks (fun j => test' (v (j * f)))
        (fun j => body' (v (j * f)) = some ((List.range' (j * f) f).map out)) f n := by
  constructor
  · rintro ⟨out₁, u, out₂, w, hmain, -, hout⟩
    obtain ⟨J, -, hJ, hblocks, hstop⟩ := hmain.blocks hlength hnext' (j := 0) (by rw [Nat.zero_mul])
      (by omega) (by rw [hout, Nat.zero_mul, Nat.sub_zero, List.range_eq_range'])
    exact ⟨J, hJ, fun j hj => hblocks j j.zero_le hj, hstop⟩
  · rintro ⟨J, hJ, hblocks, hstop⟩
    have hmain := LoopTrace.of_forall_lt (f := fun j => v (j * f))
      (fun j hj => (hblocks j hj).1) (fun j hj => (hblocks j hj).2)
      (fun j hj => hnext' j ((Nat.mul_le_mul_right f hj).trans hJ)) hstop
    simp only [Nat.zero_mul] at hmain
    refine ⟨_, _, _, _, hmain, loopTrace_of_le hJ htest hbody hnext hend, ?_⟩
    rw [← List.map_flatMap, flatMap_range'_mul, ← List.map_append, List.range_eq_range']
    congr 1
    have happend := List.range'_append_1 (s := 0) (m := J * f) (n := n - J * f)
    rwa [Nat.zero_add, Nat.add_sub_cancel' hJ] at happend

end

/-- The counted loop leaves its variable one step behind the last iteration. -/
theorem loopTrace_iterations {lower upper step : Int} (h : step ≠ 0) :
    LoopTrace (fun v => some (within upper step v)) (fun v => some [v]) (fun v => some (v + step)) lower
      (iterations lower upper step) (lower + tripCount lower upper step * step) := by
  have hout : iterations lower upper step =
      (List.range (tripCount lower upper step)).flatMap fun k : ℕ => [lower + (k : Int) * step] :=
    List.map_eq_flatMap
  have hzero : lower = lower + ((0 : ℕ) : Int) * step := by simp
  rw [hout]
  nth_rewrite 1 [hzero]
  refine .of_forall_lt (f := fun k : ℕ => lower + (k : Int) * step) (fun k hk => ?_) (fun _ _ => rfl)
    (fun k _ => ?_) ?_
  · exact congrArg some ((lt_tripCount_iff h).1 hk)
  · exact congrArg some (by push_cast; ring)
  · exact congrArg some (Bool.eq_false_iff.2 fun hin => lt_irrefl _ ((lt_tripCount_iff h).2 hin))

/-! ## Bodies that jump -/

/-- How a body ends: it comes to its end, or it goes on with the next round, or it leaves the loop. -/
inductive Flow
  | completes
  | continues
  | breaks
deriving DecidableEq

/-- The copies of a body, one after the other: a jump skips those that are left. What the bodies have read so
far, `h`, decides how the one that reads the last of it ends. -/
def runCopies {τ : Type*} (flow : List τ → Flow) (h : List τ) : List (Option τ) → Option (List τ × Flow)
  | [] => some (h, .completes)
  | none :: _ => none
  | some x :: copies => match flow (h ++ [x]) with
    | .completes => runCopies flow (h ++ [x]) copies
    | .continues => some (h ++ [x], .continues)
    | .breaks => some (h ++ [x], .breaks)

/-- Started at the value, where the bodies have read `h`, the loop ends with this value of its variable, and the
bodies have read the last list by then. -/
inductive FlowTrace {σ τ : Type*} (flow : List τ → Flow) (test : σ → Option Bool) (copies : σ → List (Option τ))
    (next : σ → Option σ) : List τ → σ → List τ → σ → Prop
  | stop {h : List τ} {v : σ} : test v = some false → FlowTrace flow test copies next h v h v
  | round {h h' h'' : List τ} {v u w : σ} {c : Flow} : test v = some true →
      runCopies flow h (copies v) = some (h', c) → c ≠ .breaks → next v = some u →
      FlowTrace flow test copies next h' u h'' w → FlowTrace flow test copies next h v h'' w
  | leave {h h' : List τ} {v : σ} : test v = some true → runCopies flow h (copies v) = some (h', .breaks) →
      FlowTrace flow test copies next h v h' v

section
variable {σ τ : Type*} {flow : List τ → Flow} {test : σ → Option Bool} {copies : σ → List (Option τ)}
  {next : σ → Option σ} {h h' : List τ} {v w : σ} {x : τ} {cs : List (Option τ)} {c : Flow}

theorem prefix_of_runCopies (hrun : runCopies flow h cs = some (h', c)) : h <+: h' := by
  induction cs generalizing h with
  | nil =>
    obtain ⟨rfl, -⟩ := Prod.ext_iff.1 (Option.some.inj hrun)
    exact List.prefix_rfl
  | cons y cs ih =>
    cases y with
    | none => cases hrun
    | some y =>
      rw [runCopies] at hrun
      split at hrun
      · exact (List.prefix_append h [y]).trans (ih hrun)
      · obtain ⟨rfl, -⟩ := Prod.ext_iff.1 (Option.some.inj hrun)
        exact List.prefix_append h [y]
      · obtain ⟨rfl, -⟩ := Prod.ext_iff.1 (Option.some.inj hrun)
        exact List.prefix_append h [y]

theorem prefix_of_runCopies_cons (hrun : runCopies flow h (some x :: cs) = some (h', c)) : h ++ [x] <+: h' := by
  rw [runCopies] at hrun
  split at hrun
  · exact prefix_of_runCopies hrun
  · obtain ⟨rfl, -⟩ := Prod.ext_iff.1 (Option.some.inj hrun)
    exact List.prefix_rfl
  · obtain ⟨rfl, -⟩ := Prod.ext_iff.1 (Option.some.inj hrun)
    exact List.prefix_rfl

/-- What has been read stays read. -/
theorem FlowTrace.prefix (htrace : FlowTrace flow test copies next h v h' w) : h <+: h' := by
  induction htrace with
  | stop => exact List.prefix_rfl
  | round _ hrun _ _ _ ih => exact (prefix_of_runCopies hrun).trans ih
  | leave _ hrun => exact prefix_of_runCopies hrun

/-- A loop that is not entered. -/
theorem FlowTrace.of_stop (htrace : FlowTrace flow test copies next h v h' w) (htest : test v = some false) :
    h' = h ∧ w = v := by
  cases htrace with
  | stop => exact ⟨rfl, rfl⟩
  | round hon => exact absurd (hon.symm.trans htest) (by decide)
  | leave hon => exact absurd (hon.symm.trans htest) (by decide)

/-- A loop that is entered reads what its first copy reads. -/
theorem FlowTrace.prefix_cons (htrace : FlowTrace flow test copies next h v h' w) (htest : test v = some true)
    (hcopies : copies v = some x :: cs) : h ++ [x] <+: h' := by
  cases htrace with
  | stop hstop => exact absurd (hstop.symm.trans htest) (by decide)
  | round _ hrun _ _ hrest =>
    rw [hcopies] at hrun
    exact (prefix_of_runCopies_cons hrun).trans hrest.prefix
  | leave _ hrun =>
    rw [hcopies] at hrun
    exact prefix_of_runCopies_cons hrun

/-- A loop whose first copy leaves it. -/
theorem FlowTrace.of_breaks (htrace : FlowTrace flow test copies next h v h' w) (htest : test v = some true)
    (hcopies : copies v = some x :: cs) (hflow : flow (h ++ [x]) = .breaks) : h' = h ++ [x] ∧ w = v := by
  have hfirst : runCopies flow h (copies v) = some (h ++ [x], .breaks) := by
    simp only [hcopies, runCopies, hflow]
  cases htrace with
  | stop hstop => exact absurd (hstop.symm.trans htest) (by decide)
  | round _ hrun hc =>
    obtain ⟨-, rfl⟩ := Prod.ext_iff.1 (Option.some.inj (hrun.symm.trans hfirst))
    exact absurd rfl hc
  | leave _ hrun =>
    obtain ⟨rfl, -⟩ := Prod.ext_iff.1 (Option.some.inj (hrun.symm.trans hfirst))
    exact ⟨rfl, rfl⟩

/-- A loop whose first copy goes on with the next round. -/
theorem FlowTrace.of_continues (htrace : FlowTrace flow test copies next h v h' w) (htest : test v = some true)
    (hcopies : copies v = some x :: cs) (hflow : flow (h ++ [x]) = .continues) :
    ∃ u, next v = some u ∧ FlowTrace flow test copies next (h ++ [x]) u h' w := by
  have hfirst : runCopies flow h (copies v) = some (h ++ [x], .continues) := by
    simp only [hcopies, runCopies, hflow]
  cases htrace with
  | stop hstop => exact absurd (hstop.symm.trans htest) (by decide)
  | round _ hrun _ hnext hrest =>
    obtain ⟨rfl, -⟩ := Prod.ext_iff.1 (Option.some.inj (hrun.symm.trans hfirst))
    exact ⟨_, hnext, hrest⟩
  | leave _ hrun =>
    obtain ⟨-, hc⟩ := Prod.ext_iff.1 (Option.some.inj (hrun.symm.trans hfirst))
    cases hc

/-- Without jumps all the copies run. -/
theorem runCopies_of_completes (hflow : ∀ h, flow h = .completes) :
    runCopies flow h cs = (cs.mapM id).map fun out => (h ++ out, .completes) := by
  induction cs generalizing h with
  | nil => simp [runCopies]
  | cons y cs ih =>
    cases y with
    | none => rfl
    | some y =>
      rw [runCopies, hflow, ih, List.mapM_cons]
      cases cs.mapM id <;> simp

/-- Without jumps the loop has the trace of its copies. -/
theorem flowTrace_iff_of_completes (hflow : ∀ h, flow h = .completes) :
    FlowTrace flow test copies next h v h' w ↔
      ∃ out, h' = h ++ out ∧ LoopTrace test (fun v => (copies v).mapM id) next v out w := by
  constructor
  · intro htrace
    induction htrace with
    | stop htest => exact ⟨[], (List.append_nil _).symm, .stop htest⟩
    | round htest hrun _ hnext _ ih =>
      rw [runCopies_of_completes hflow, Option.map_eq_some_iff] at hrun
      obtain ⟨out, hout, heq⟩ := hrun
      obtain ⟨rfl, -⟩ := Prod.ext_iff.1 heq
      obtain ⟨rest, rfl, hrest⟩ := ih
      exact ⟨out ++ rest, List.append_assoc _ _ _, .step htest hout hnext hrest⟩
    | leave _ hrun =>
      rw [runCopies_of_completes hflow, Option.map_eq_some_iff] at hrun
      obtain ⟨_, -, heq⟩ := hrun
      cases (Prod.ext_iff.1 heq).2
  · rintro ⟨out, rfl, htrace⟩
    induction htrace generalizing h with
    | stop htest =>
      rw [List.append_nil]
      exact .stop htest
    | step htest hbody hnext _ ih =>
      rw [← List.append_assoc]
      refine .round (c := .completes) htest ?_ (by decide) hnext ih
      rw [runCopies_of_completes hflow, hbody, Option.map_some]

/-- A counted loop comes to its end, however its bodies end. -/
theorem exists_flowTrace {v : ℕ → σ} {out : ℕ → τ} {n : ℕ} (htest : ∀ k < n, test (v k) = some true)
    (hcopies : ∀ k < n, copies (v k) = [some (out k)]) (hnext : ∀ k < n, next (v k) = some (v (k + 1)))
    (hend : test (v n) = some false) {m : ℕ} (hm : m ≤ n) (h : List τ) :
    ∃ h' w, FlowTrace flow test copies next h (v m) h' w := by
  induction hm using Nat.decreasingInduction generalizing h with
  | self => exact ⟨h, _, .stop hend⟩
  | of_succ k hk ih =>
    obtain ⟨h', w, hrest⟩ := ih (h ++ [out k])
    cases hflow : flow (h ++ [out k]) with
    | completes =>
      have hrun : runCopies flow h (copies (v k)) = some (h ++ [out k], .completes) := by
        rw [hcopies k hk, runCopies, hflow]
        rfl
      exact ⟨h', w, .round (htest k hk) hrun (by decide) (hnext k hk) hrest⟩
    | continues =>
      have hrun : runCopies flow h (copies (v k)) = some (h ++ [out k], .continues) := by
        rw [hcopies k hk, runCopies, hflow]
      exact ⟨h', w, .round (htest k hk) hrun (by decide) (hnext k hk) hrest⟩
    | breaks =>
      refine ⟨_, _, .leave (htest k hk) (?_ : _ = some (h ++ [out k], _))⟩
      rw [hcopies k hk, runCopies, hflow]

end

/-! ## Given values -/

section
variable {σ : Type*} {test : σ → Bool} {next : σ → Option σ} {v x : σ} {l : List σ}

/-- The loop runs its body for these values of its variable, and ends. -/
def Visits (test : σ → Bool) (next : σ → Option σ) (v : σ) (values : List σ) : Prop :=
  ∃ w, LoopTrace (fun v => some (test v)) (fun v => some [v]) next v values w

theorem visits_nil_iff : Visits test next v [] ↔ test v = false := by
  constructor
  · rintro ⟨w, htrace⟩
    generalize hl : ([] : List σ) = l at htrace
    cases htrace with
    | stop htest => exact Option.some.inj htest
    | step _ hbody =>
      rw [← Option.some.inj hbody] at hl
      cases hl
  · exact fun htest => ⟨v, .stop (congrArg some htest)⟩

theorem visits_cons_iff : Visits test next v (x :: l) ↔
    v = x ∧ test x = true ∧ ∃ u, next x = some u ∧ Visits test next u l := by
  constructor
  · rintro ⟨w, htrace⟩
    generalize hl : x :: l = values at htrace
    cases htrace with
    | stop => cases hl
    | step htest hbody hnext hrest =>
      obtain rfl := Option.some.inj hbody
      obtain ⟨rfl, rfl⟩ := List.cons.inj hl
      exact ⟨rfl, Option.some.inj htest, _, hnext, w, hrest⟩
  · rintro ⟨rfl, htest, u, hnext, w, hrest⟩
    have htrace : LoopTrace (fun v => some (test v)) (fun v => some [v]) next v ([v] ++ l) w :=
      .step (congrArg some htest) rfl hnext hrest
    exact ⟨w, htrace⟩

/-- A loop that goes through `f 0, .., f n`. -/
theorem visits_map_range_iff {f : ℕ → σ} {n : ℕ} : Visits test next v ((List.range (n + 1)).map f) ↔
    v = f 0 ∧ (∀ k ≤ n, test (f k) = true) ∧ (∀ k < n, next (f k) = some (f (k + 1))) ∧
      ∃ u, next (f n) = some u ∧ test u = false := by
  induction n generalizing f v with
  | zero =>
    rw [List.range_one, List.map_singleton, visits_cons_iff]
    simp only [visits_nil_iff, Nat.le_zero, forall_eq, Nat.not_lt_zero, false_imp_iff, implies_true, true_and]
  | succ n ih =>
    rw [List.range_succ_eq_map, List.map_cons, List.map_map, visits_cons_iff]
    have hrest : ∀ u, Visits test next u ((List.range (n + 1)).map (f ∘ Nat.succ)) ↔ _ := fun u => ih
    simp only [hrest, Function.comp_apply]
    constructor
    · rintro ⟨hv, hfirst, u, hu, rfl, htest, hnext, hend⟩
      refine ⟨hv, fun k hk => ?_, fun k hk => ?_, hend⟩
      · cases k with
        | zero => exact hfirst
        | succ k => exact htest k (Nat.le_of_succ_le_succ hk)
      · cases k with
        | zero => exact hu
        | succ k => exact hnext k (Nat.lt_of_succ_lt_succ hk)
    · rintro ⟨hv, htest, hnext, hend⟩
      exact ⟨hv, htest 0 (Nat.zero_le _), f 1, hnext 0 n.succ_pos, rfl,
        fun k hk => htest (k + 1) (Nat.succ_le_succ hk), fun k hk => hnext (k + 1) (Nat.succ_lt_succ hk), hend⟩

/-- A loop that takes the steps of `f`, as far as it takes any, goes through values of `f`. -/
theorem eq_map_range_of_visits {f : ℕ → σ} (h : Visits test next (f 0) l)
    (hnext : ∀ k, k + 1 < l.length → ∀ u, next (f k) = some u → u = f (k + 1)) :
    l = (List.range l.length).map f := by
  induction l generalizing f with
  | nil => rfl
  | cons x l ih =>
    obtain ⟨rfl, -, u, hu, hrest⟩ := visits_cons_iff.1 h
    rw [List.length_cons, List.range_succ_eq_map, List.map_cons, List.map_map]
    cases l with
    | nil => rfl
    | cons y l =>
      obtain rfl := hnext 0 (Nat.succ_lt_succ l.length.succ_pos) u hu
      exact congrArg _ (ih (f := fun k => f (k + 1)) hrest fun k hk => hnext (k + 1) (Nat.succ_lt_succ hk))

end

/-- When a loop goes through the iterations of a counted loop. -/
theorem visits_iterations_iff {test : Int → Bool} {next : Int → Option Int} {v lower upper step : Int} :
    Visits test next v (iterations lower upper step) ↔ match tripCount lower upper step with
      | 0 => test v = false
      | n + 1 => v = lower ∧ (∀ k ≤ n, test (lower + k * step) = true) ∧
        (∀ k < n, next (lower + k * step) = some (lower + (k + 1 : ℕ) * step)) ∧
          ∃ u, next (lower + n * step) = some u ∧ test u = false := by
  unfold iterations
  split
  · next hcount => rw [hcount, List.range_zero, List.map_nil, visits_nil_iff]
  · next n hcount =>
    rw [hcount, visits_map_range_iff, Nat.cast_zero, Int.zero_mul, Int.add_zero]

section
variable {test : Int → Bool} {next : Int → Option Int} {lower upper step : Int} {l : List Int}

/-- A loop that takes the steps of the counted loop has its iterations in its order. -/
theorem eq_iterations_of_visits (h : Visits test next lower l) (hperm : l.Perm (iterations lower upper step))
    (hnext : ∀ k, k + 1 < tripCount lower upper step → ∀ u, next (lower + k * step) = some u →
      u = lower + (k + 1 : ℕ) * step) : l = iterations lower upper step := by
  have hlength : l.length = tripCount lower upper step := by
    rw [hperm.length_eq, iterations, List.length_map, List.length_range]
  have hl := eq_map_range_of_visits (f := fun k : ℕ => lower + (k : Int) * step)
    (by rwa [Nat.cast_zero, Int.zero_mul, Int.add_zero]) fun k hk => hnext k (hlength ▸ hk)
  rwa [hlength] at hl

end

end OmpSs.Lib
