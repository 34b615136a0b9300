import ForthMachine.Proofs.Machine.Action

namespace ForthMachine

namespace Operand

theorem need_apply (n : Nat) (s : Stack Cell) :
    need n s = if s.length < n then .error (.ofKind .stackUnderflow) s else .ok () s := by
  simp only [need, Action.bind_apply, Action.get_apply]
  split <;> rfl

@[simp] theorem need_two_nil : need 2 [] = .error (.ofKind .stackUnderflow) [] := rfl

@[simp] theorem need_two_singleton (x : Cell) :
    need 2 [x] = .error (.ofKind .stackUnderflow) [x] := rfl

@[simp] theorem need_two_cons (x y : Cell) (s : Stack Cell) : need 2 (x :: y :: s) = .ok () (x :: y :: s) := by
  rw [need_apply, if_neg (by simp)]

@[simp] theorem cell_nil : cell [] = .error (.ofKind .stackUnderflow) [] := rfl

@[simp] theorem cell_cons (c : Cell) (s : Stack Cell) : cell (c :: s) = .ok c s := rfl

@[simp] theorem number_nil : number [] = .error (.ofKind .stackUnderflow) [] := rfl

@[simp] theorem number_cons (c : Cell) (s : Stack Cell) :
    number (c :: s) = match c.number? with
      | some n => .ok n s
      | none => .error (.ofKind .typeMismatch) s := by
  simp only [number, Action.bind_apply, cell_cons]
  cases c.number? <;> rfl

@[simp] theorem text_nil : text [] = .error (.ofKind .stackUnderflow) [] := rfl

@[simp] theorem text_cons (c : Cell) (s : Stack Cell) :
    text (c :: s) = match c.text? with
      | some n => .ok n s
      | none => .error (.ofKind .typeMismatch) s := by
  simp only [text, Action.bind_apply, cell_cons]
  cases c.text? <;> rfl

@[simp] theorem address_nil : address [] = .error (.ofKind .stackUnderflow) [] := rfl

@[simp] theorem address_cons (c : Cell) (s : Stack Cell) :
    address (c :: s) = match c.address? with
      | some n => .ok n s
      | none => .error (.atAddress .invalidAddress (-1)) s := by
  simp only [address, Action.bind_apply, cell_cons]
  cases c.address? <;> rfl

@[simp] theorem token_nil : token [] = .error (.ofKind .stackUnderflow) [] := rfl

@[simp] theorem token_cons (c : Cell) (s : Stack Cell) :
    token (c :: s) = match c.token? with
      | some n => .ok n s
      | none => .error (.atAddress .invalidAddress (-1)) s := by
  simp only [token, Action.bind_apply, cell_cons]
  cases c.token? <;> rfl

@[simp] theorem push_apply (c : Cell) (s : Stack Cell) : push c s = .ok () (c :: s) := rfl

theorem rearrange_apply (f : Stack Cell → Option (Stack Cell)) (s : Stack Cell) :
    rearrange f s = match f s with
      | some s' => .ok () s'
      | none => .error (.ofKind .stackUnderflow) s := by
  simp only [rearrange, Action.bind_apply, Action.get_apply]
  cases f s <;> rfl

theorem rearrange_eq_error_iff {f : Stack Cell → Option (Stack Cell)} {s : Stack Cell} :
    rearrange f s = .error (.ofKind .stackUnderflow) s ↔ f s = none := by
  rw [rearrange_apply]
  cases f s <;> simp

end Operand

end ForthMachine
