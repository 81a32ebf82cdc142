import JsonShape.Inference.Step
import JsonShape.Proofs.Inference.Descent

/-!
# The levels that count as open

An inference may be driven step by step, and goes on after a step that failed. Whatever the steps
are, and wherever in a value one of them fails, the levels that count as open afterwards are those
that were refused, one for each step that failed for that reason (`Inference.depth_refused`).
-/

namespace JsonShape.Inference

variable {i : Inference}

/-- Saying a result in another way does not change what is counted. -/
theorem Accounts.map {α β : Type} {f : α → β} {result : Except Failure α × Inference}
    (h : Accounts i result) : Accounts i (result.map (·.map f) id) := by
  obtain ⟨_ | a, i'⟩ := result
  · exact ⟨h.flat, by rw [Prod.map, Except.map, isTooDeep_error]; exact h.depth⟩
  · exact ⟨h.flat, h.depth⟩

/-- A step counts one more level exactly if it refuses one. -/
theorem accounts_perform (h : i.cursor.source.Flat) (step : Step) :
    Accounts i (step.perform i) := by
  cases step with
  | value | object | array => exact (accounts_readFrom h _ _).map
  | accept kind => exact (accounts_accept h kind).map
  | expect kind => exact (accounts_expect h kind).map
  | skip => exact (accounts_skip h).map
  | peek => exact (accounts_peek h).map

/-- All steps together count one more level for each that one of them refuses. -/
theorem accounts_performAll (h : i.cursor.source.Flat) (steps : List Step) :
    (i.performAll steps).2.cursor.source.Flat ∧
      (i.performAll steps).2.depth = i.depth + (i.performAll steps).1.countP isTooDeep := by
  induction steps generalizing i with
  | nil => exact ⟨h, rfl⟩
  | cons step steps ih =>
    obtain ⟨hflat, hdepth⟩ := accounts_perform h step
    obtain ⟨hlast, hall⟩ := ih hflat
    refine ⟨hlast, ?_⟩
    rw [performAll]
    dsimp only
    rw [hall, hdepth, List.countP_cons]
    omega

/-- Whatever a new inference is told to do, as many levels count as open afterwards as steps failed
because levels nest too deep. They are counted where they are opened, and given back where they are
left: what an inference does for a call is what the procedure of the call does. -/
theorem depth_refused (steps : List Step) :
    (∀ ts, let done := (ofSource (.tokens ts)).performAll steps
      done.2.depth = done.1.countP isTooDeep) ∧
    (∀ source k,
      let done := (ofSource (.lexer ((Lexer.ofSource source).after k))).performAll steps
      done.2.depth = done.1.countP isTooDeep) ∧
    ∀ (call : Call) (i : Inference), i.cursor.source.Flat →
      call.perform i = call.body Call.perform i := by
  refine ⟨fun ts => ?_, fun source k => ?_, fun call i h => perform_eq_body h call⟩
  · have h : (ofSource (.tokens ts)).cursor.source.Flat := trivial
    exact (accounts_performAll h steps).2.trans (Nat.zero_add _)
  · have h : (ofSource (.lexer ((Lexer.ofSource source).after k))).cursor.source.Flat :=
      Lexer.flat_after source k
    exact (accounts_performAll h steps).2.trans (Nat.zero_add _)

/-- Of 129 brackets the last is refused. That level counts from then on, also behind a value that
fails for another reason, so that of further brackets the last of 128 is refused. -/
theorem depth_refused_twice :
    let bracket : Token := ⟨.arrayStart, none, 0⟩
    let ts := List.replicate 129 bracket ++ ⟨.comma, none, 129⟩ :: List.replicate 128 bracket
    let done := (ofSource (.tokens ts)).performAll [.value, .value, .value]
    done.1.map isTooDeep = [true, false, true] ∧ done.2.depth = 2 ∧
      done.2.value = Call.value.body Call.perform done.2 := by
  intro bracket ts done
  have h : (ofSource (.tokens ts)).cursor.source.Flat := trivial
  have hcount : done.1.countP isTooDeep = 2 := by decide +kernel
  obtain ⟨htokens, -, hbody⟩ := depth_refused [.value, .value, .value]
  exact ⟨by decide +kernel, (htokens ts).trans hcount,
    hbody .value done.2 (accounts_performAll h _).1⟩

end JsonShape.Inference
