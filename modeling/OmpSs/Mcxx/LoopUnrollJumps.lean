import OmpSs.Mcxx.LoopUnrollExact

/-!
# Unrolling a body that jumps

The copies of the body are siblings in the body of the unrolled loop, so a `continue` of one of them skips the
copies that are left, and a `break` leaves the unrolled loop for the epilogue, which starts over at the index of
the first copy. `unroll_iff` is for every body: where it has a jump of the loop, the unrolled loop must not be
entered at all.
-/

namespace OmpSs.Mcxx.LoopUnroll

open Lib Cexpr
open CollapseCount (int32)

/-! ## Bodies -/

/-- The jumps in the text of a body that belong to the loop. A body that leaves the function ends the loop of the
source and the unrolled one alike. -/
structure Jumps where
  continues : Bool
  breaks : Bool

/-- The body has no other jumps, whatever it computes from the indices it has read. -/
def Jumps.Allows (jumps : Jumps) (flow : List Int → Flow) : Prop :=
  ∀ h, (flow h = .continues → jumps.continues = true) ∧ (flow h = .breaks → jumps.breaks = true)

/-- Reached with the induction variable at `i`, where the bodies have read the indices `h`, the loop ends with it
at `w`, and the bodies have read `h'`. -/
def ForLoop.FlowRuns (flow : List Int → Flow) (var : IntType) (loop : ForLoop) (h : List Int) (i : Int)
    (h' : List Int) (w : Int) : Prop :=
  ∃ v, loop.start var i = some v ∧
    FlowTrace flow (loop.test var) (fun i => loop.body.map (Expr.eval var i)) (loop.advance var) h v h' w

namespace ForStatement

section
variable (w : CValue) (l : ForStatement) (f : Nat)

/-- From the unrolled loop on, the epilogue runs to its end. -/
def UnrolledFlow (flow : List Int → Flow) (i : Int) (h' : List Int) (v : Int) : Prop :=
  ∃ unrolled epilog, l.unroll w f = some (unrolled, epilog) ∧ ∃ h u,
    unrolled.FlowRuns flow (int32 l.sign) [] i h u ∧ epilog.FlowRuns flow (int32 l.sign) h u h' v

/-- The loop and its unrolled form with its epilogue come to their ends, and their bodies read the same
indices in the same order, whichever of its jumps the body takes. -/
def SameIndices (jumps : Jumps) : Prop :=
  ∀ flow, jumps.Allows flow → ∀ i, ∃ h v v', l.loop.FlowRuns flow (int32 l.sign) [] i h v ∧
    l.UnrolledFlow w f flow i h v'

/-- The unrolled loop is entered: the lower bound passes its test, a comparison of the type `int` or of
`unsigned`. -/
def Enters : Prop :=
  let bound := l.closed - l.step * (f - 1 : Nat)
  if l.sign = true ∧ (l.step_sign = true ∨ (l.constant = false ∧ l.step = 1)) then
    l.passes l.lower_bound bound = true
  else l.passes (l.lower_bound % 4294967296) (bound % 4294967296) = true

instance : Decidable (l.Enters f) := inferInstanceAs (Decidable (ite _ _ _))

end

/-! ## Bodies without jumps -/

section
variable {w : CValue} {l : ForStatement} {f : Nat} {flow : List Int → Flow} {jumps : Jumps} {loop : ForLoop}
  {var : IntType} {h h' out : List Int} {i v : Int} {upper : Expr}

theorem flowRuns_iff_of_completes (hflow : ∀ h, flow h = .completes) :
    loop.FlowRuns flow var h i h' v ↔ ∃ out, h' = h ++ out ∧ loop.Runs var i out v := by
  have hbody (i : Int) : (loop.body.map (Expr.eval var i)).mapM id = loop.runBody var i := by
    rw [ForLoop.runBody, List.mapM_map]
    rfl
  unfold ForLoop.FlowRuns ForLoop.Runs
  simp only [flowTrace_iff_of_completes hflow, hbody]
  constructor
  · rintro ⟨v, hstart, out, rfl, htrace⟩
    exact ⟨out, rfl, v, hstart, htrace⟩
  · rintro ⟨out, rfl, v, hstart, htrace⟩
    exact ⟨v, hstart, out, rfl, htrace⟩

theorem unrolledFlow_iff_of_completes (hflow : ∀ h, flow h = .completes) :
    l.UnrolledFlow w f flow i out v ↔ l.UnrolledRuns w f i out v := by
  unfold UnrolledFlow UnrolledRuns
  simp only [flowRuns_iff_of_completes hflow, List.nil_append]
  refine exists₂_congr fun unrolled epilog => and_congr_right fun _ => ?_
  constructor
  · rintro ⟨h, u, ⟨_, rfl, hmain⟩, out₂, rfl, hepilog⟩
    exact ⟨h, u, out₂, hmain, hepilog, rfl⟩
  · rintro ⟨h, u, out₂, hmain, hepilog, rfl⟩
    exact ⟨h, u, ⟨h, rfl, hmain⟩, out₂, rfl, hepilog⟩

/-- A body without jumps. -/
theorem sameIterations_iff_of_completes (hflow : ∀ h, flow h = .completes) :
    (∀ i, ∃ h v v', l.loop.FlowRuns flow (int32 l.sign) [] i h v ∧ l.UnrolledFlow w f flow i h v') ↔
      l.SameIterations w f := by
  unfold SameIterations
  simp only [unrolledFlow_iff_of_completes hflow, flowRuns_iff_of_completes hflow, List.nil_append,
    exists_eq_left']

/-- Whatever jumps there are, they need not be taken. -/
theorem SameIndices.sameIterations (h : l.SameIndices w f jumps) : l.SameIterations w f :=
  (sameIterations_iff_of_completes fun _ => rfl).1 (h (fun _ => .completes) fun _ => ⟨nofun, nofun⟩)

theorem value_zero (l : ForStatement) : l.value 0 = l.lower_bound := by
  rw [value, Nat.cast_zero, Int.zero_mul, Int.add_zero]

theorem Regular.test_lower_of_step (h : l.Regular) (hf2 : 2 ≤ f) (hf : f < 2147483648) (hsign : l.sign = true)
    (hstep : l.step_sign = true) (hsame : l.SameIterations w f) :
    ∃ upper, l.unrolledUpperBound w f = some upper ∧ (l.unrolledLoop w f upper).test (int32 l.sign) l.lower_bound =
      some (l.passes l.lower_bound (l.closed - l.step * (f - 1 : Nat))) := by
  have hshifted := shifted_eq (f := f) (stride_eq_step hstep)
  rw [hshifted]
  cases hconst : l.constant with
  | true =>
    refine ⟨_, unrolledUpperBound_constant hconst, ?_⟩
    have hsigns : (l.sign && l.step_sign) = true := by rw [hsign, hstep, Bool.and_self]
    rw [hsigns, hshifted, constValueToNodecl_constant fun _ => inRange_long_shifted hf hstep]
    exact test_literal_signed hsign l.lower_inRange (inRange_long_shifted hf hstep)
  | false =>
    obtain ⟨upper, hupper, htype, heval⟩ := unrolledUpperBound_not_constant (w := w) hconst hf
    obtain ⟨hclosed, hrange, hfits⟩ :=
      ((h.sameIterations_signed hf2 hf hsign hstep).1 hsame).resolve_left (by simp [hconst])
    have hsigns : l.rangeSign = true := by rw [rangeSign, hstep, Bool.true_or]
    rw [hsigns, hsign, Bool.and_self] at htype heval
    simp only [result_bind, true_imp_iff, hshifted] at heval
    refine ⟨upper, hupper, test_signed hsign l.lower_inRange ?_ (.inl ?_)⟩
    · rw [hsign, heval, if_pos hclosed, if_pos hrange, result_of_inRange hfits]
    · rw [hsign]
      exact ⟨htype, hfits⟩

/-- A comparison of the type `int`. -/
theorem Regular.test_lower_signed (h : l.Regular) (hf2 : 2 ≤ f) (hf : f < 2147483648) (hsign : l.sign = true)
    (hcompare : l.step_sign = true ∨ (l.constant = false ∧ l.step = 1)) (hsame : l.SameIterations w f) :
    ∃ upper, l.unrolledUpperBound w f = some upper ∧ (l.unrolledLoop w f upper).test (int32 l.sign) l.lower_bound =
      some (l.passes l.lower_bound (l.closed - l.step * (f - 1 : Nat))) := by
  cases hstep : l.step_sign with
  | true => exact h.test_lower_of_step hf2 hf hsign hstep hsame
  | false =>
    obtain ⟨hconst, hone⟩ := hcompare.resolve_left (by simp [hstep])
    obtain ⟨upper, hupper, htype, heval⟩ := upper_byOne (w := w) hf hsign hconst hone
    obtain ⟨hclosed, hfits, -⟩ := (h.sameIterations_byOne hf2 hf hsign hstep hconst hone).1 hsame
    rw [hone, Int.one_mul]
    exact ⟨upper, hupper, test_signed hsign l.lower_inRange ((heval _).trans (if_pos ⟨hclosed, hfits⟩))
      (.inl ⟨htype, hfits⟩)⟩

/-- The unrolled loop tests its lower bound as `Enters` says, if nothing overflows. -/
theorem Regular.test_lower (h : l.Regular) (hf2 : 2 ≤ f) (hf : f < 2147483648) (hsame : l.SameIterations w f) :
    ∃ upper, l.unrolledUpperBound w f = some upper ∧
      (l.unrolledLoop w f upper).test (int32 l.sign) (l.value 0) = some (decide (l.Enters f)) := by
  rw [value_zero]
  unfold Enters
  by_cases hcompare : l.sign = true ∧ (l.step_sign = true ∨ (l.constant = false ∧ l.step = 1))
  · simp only [if_pos hcompare, Bool.decide_eq_true]
    exact h.test_lower_signed hf2 hf hcompare.1 hcompare.2 hsame
  · simp only [if_neg hcompare, Bool.decide_eq_true]
    have hunsigned : (l.sign && l.step_sign) = false :=
      Bool.eq_false_iff.2 fun hand => hcompare ((Bool.and_eq_true_iff.1 hand).imp_right .inl)
    have hone : l.constant = false → l.sign = true → l.step ≠ 1 :=
      fun hconst hsign hone => hcompare ⟨hsign, .inr ⟨hconst, hone⟩⟩
    obtain ⟨upper, hupper, htype, heval⟩ := unsigned_upper (w := w) hf hunsigned hone
    have hdef := ((h.sameIterations_unsigned_iff hf hunsigned hone).1 hsame).1
    refine ⟨upper, hupper, ?_⟩
    rw [test_unsigned ((heval _).trans (if_pos hdef)) htype, Int.emod_emod_of_dvd _ dvd_rfl, shifted_emod]

/-! ## Bodies with jumps -/

theorem copies_loop (k : Nat) : l.loop.body.map (Expr.eval (int32 l.sign) (l.value k)) = [some (l.value k)] := rfl

/-- The first copy reads the index itself. -/
theorem copies_unrolled (upper : Expr) (hf : 0 < f) (i : Int) :
    ∃ cs, (l.unrolledLoop w f upper).body.map (Expr.eval (int32 l.sign) i) = some i :: cs := by
  obtain ⟨g, rfl⟩ : ∃ g, f = g + 1 := ⟨f - 1, by omega⟩
  rw [unrolledLoop, List.range_succ_eq_map, List.map_cons, List.map_cons]
  exact ⟨_, rfl⟩

/-- What the runs of a loop and its unrolled form have in common, by the new bound. -/
theorem exists_traces (hupper : l.unrolledUpperBound w f = some upper) (hsame : l.SameIndices w f jumps)
    (hflow : jumps.Allows flow) : ∃ h v v' h₁ u,
      FlowTrace flow (l.loop.test (int32 l.sign)) (fun i => l.loop.body.map (Expr.eval (int32 l.sign) i))
        (l.loop.advance (int32 l.sign)) [] (l.value 0) h v ∧
      FlowTrace flow ((l.unrolledLoop w f upper).test (int32 l.sign))
        (fun i => (l.unrolledLoop w f upper).body.map (Expr.eval (int32 l.sign) i))
        ((l.unrolledLoop w f upper).advance (int32 l.sign)) [] (l.value 0) h₁ u ∧
      FlowTrace flow (l.loop.test (int32 l.sign)) (fun i => l.loop.body.map (Expr.eval (int32 l.sign) i))
        (l.loop.advance (int32 l.sign)) h₁ u h v' := by
  obtain ⟨h, v, v', ⟨x, hx, hsource⟩, unrolled, epilog, hunroll, h₁, u, ⟨y, hy, hmain⟩, z, hz, hepilog⟩ :=
    hsame flow hflow 0
  rw [unroll_eq, hupper, Option.map_some] at hunroll
  obtain ⟨rfl, rfl⟩ := Prod.ext_iff.1 (Option.some.inj hunroll)
  obtain rfl := Option.some.inj ((start_loop 0).symm.trans hx)
  obtain rfl := Option.some.inj ((start_loop 0).symm.trans hy)
  obtain rfl := Option.some.inj hz
  exact ⟨h, v, v', h₁, u, hsource, hmain, hepilog⟩

/-- A `break` of the first copy starts over in the epilogue. -/
theorem Regular.not_sameIndices_of_breaks (h : l.Regular) (hf2 : 2 ≤ f) (hcount : f ≤ l.count)
    (hbreaks : jumps.breaks = true) (hupper : l.unrolledUpperBound w f = some upper)
    (htest : (l.unrolledLoop w f upper).test (int32 l.sign) (l.value 0) = some true) :
    ¬ l.SameIndices w f jumps := by
  intro hsame
  let flow (h : List Int) : Flow := if h = [l.value 0] then .breaks else .completes
  have hbreak : flow [l.value 0] = .breaks := if_pos rfl
  have hallows : jumps.Allows flow := by
    intro h
    refine ⟨fun hc => ?_, fun _ => hbreaks⟩
    simp only [flow] at hc
    split at hc <;> cases hc
  obtain ⟨h', _, _, h₁, u, hsource, hmain, hepilog⟩ := exists_traces hupper hsame hallows
  have hzero := h.test_value_lt (k := 0) (by omega)
  obtain ⟨_, hcopies⟩ := copies_unrolled (l := l) (w := w) (f := f) upper (by omega) (l.value 0)
  obtain ⟨rfl, -⟩ := hsource.of_breaks hzero (copies_loop 0) hbreak
  obtain ⟨rfl, rfl⟩ := hmain.of_breaks htest hcopies hbreak
  have hagain := (hepilog.prefix_cons hzero (copies_loop 0)).length_le
  simp at hagain

/-- A `continue` of the first copy skips the others. -/
theorem Regular.not_sameIndices_of_continues (h : l.Regular) (hf2 : 2 ≤ f) (hf : f < 2147483648)
    (hcount : f ≤ l.count) (hcontinues : jumps.continues = true) (hupper : l.unrolledUpperBound w f = some upper)
    (htest : (l.unrolledLoop w f upper).test (int32 l.sign) (l.value 0) = some true) :
    ¬ l.SameIndices w f jumps := by
  intro hsame
  let flow (h : List Int) : Flow := if h = [l.value 0] then .continues else .completes
  have hcontinue : flow [l.value 0] = .continues := if_pos rfl
  have hallows : jumps.Allows flow := by
    intro h
    refine ⟨fun _ => hcontinues, fun hc => ?_⟩
    simp only [flow] at hc
    split at hc <;> cases hc
  obtain ⟨h', _, _, h₁, u, hsource, hmain, hepilog⟩ := exists_traces hupper hsame hallows
  have hcopies (i : Int) := copies_unrolled (l := l) (w := w) (f := f) upper (by omega) i
  -- The second round of the loop of the source reads the second index.
  obtain ⟨_, hnext, hsource⟩ := hsource.of_continues (h.test_value_lt (by omega)) (copies_loop 0) hcontinue
  obtain rfl := Option.some.inj ((h.advance_value (by omega)).symm.trans hnext)
  have hone := hsource.prefix_cons (h.test_value_lt (by omega)) (copies_loop 1)
  -- What the unrolled loop and the epilogue read next, if anything, is the index of the second block.
  obtain ⟨_, hskipped⟩ := hcopies (l.value 0)
  obtain ⟨_, hnext, hmain⟩ := hmain.of_continues htest hskipped hcontinue
  have hadvance : (l.unrolledLoop w f upper).advance (int32 l.sign) (l.value 0) = some (l.value (0 + f)) :=
    h.advance_unrolled hf (by omega)
  rw [Nat.zero_add] at hadvance
  obtain rfl := Option.some.inj (hadvance.symm.trans hnext)
  have hblock : h' = [l.value 0] ∨ [l.value 0] ++ [l.value f] <+: h' := by
    cases htest : (l.unrolledLoop w f upper).test (int32 l.sign) (l.value f) with
    | none => cases hmain <;> simp_all
    | some entered => cases entered with
      | true =>
        obtain ⟨_, hsecond⟩ := hcopies (l.value f)
        exact .inr ((hmain.prefix_cons htest hsecond).trans hepilog.prefix)
      | false =>
        obtain ⟨rfl, rfl⟩ := hmain.of_stop htest
        rcases hcount.lt_or_eq with hlt | heq
        · exact .inr (hepilog.prefix_cons (h.test_value_lt hlt) (copies_loop f))
        · rw [heq] at hepilog
          exact .inl (hepilog.of_stop h.test_value_count).1
  rcases hblock with rfl | hblock
  · have := hone.length_le
    simp at this
  · have heq := (List.prefix_of_prefix_length_le hone hblock le_rfl).eq_of_length rfl
    have hvalue : l.value 1 = l.value f := by simpa using heq
    unfold value at hvalue
    have hmul := mul_right_cancel₀ stride_ne_zero (add_left_cancel hvalue)
    omega

/-- A loop that is not entered leaves all to the epilogue. -/
theorem Regular.sameIndices_of_not_entered (h : l.Regular) (hupper : l.unrolledUpperBound w f = some upper)
    (htest : (l.unrolledLoop w f upper).test (int32 l.sign) (l.value 0) = some false) :
    l.SameIndices w f jumps := by
  intro flow _ i
  have hcopies : ∀ k < l.count, l.loop.body.map (Expr.eval (int32 l.sign) (l.value k)) = [some (l.value k)] :=
    fun k _ => copies_loop k
  obtain ⟨h', v, htrace⟩ := @exists_flowTrace _ _ flow _ (fun i => l.loop.body.map (Expr.eval (int32 l.sign) i)) _ _ _ _
    (fun _ => h.test_value_lt) hcopies (fun _ => h.advance_value) h.test_value_count _ l.count.zero_le []
  refine ⟨h', v, v, ⟨l.value 0, start_loop i, htrace⟩, l.unrolledLoop w f upper, { l.loop with init := none }, ?_, [],
    l.value 0, ⟨l.value 0, start_loop i, .stop htest⟩, l.value 0, rfl, htrace⟩
  rw [unroll_eq, hupper, Option.map_some]

end

end ForStatement

/-- The loop `for (unsigned i = 0; i <= bound; i++)`, with a constant for its bound. -/
def upToLoop (bound : Int) (h : (int32 false).InRange bound) : ForStatement where
  sign := false
  step_sign := true
  test := .lowerOrEqual
  constant := true
  lower_bound := 0
  bound := bound
  step := 1
  lower_inRange := by decide
  bound_inRange := h
  step_inRange := by decide
  step_ne_zero := by decide

end OmpSs.Mcxx.LoopUnroll
