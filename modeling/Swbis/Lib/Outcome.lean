import Swbis.Lib.CString

/-!
# How a call ends, and what it has written

`Outcome α` is how a C call can end: it returns a value, it ends the process
with a status, it reads or writes outside the memory it was given, or the
evaluation is cut short because the fuel is used up.  The last one is the only
way the model has to say that a loop has not ended yet, so a call that ends is
one whose outcome, for some fuel, is not `outOfFuel`.

`Emit α` is a call that writes to a descriptor and then ends in one of these
ways; it returns a value, or it gives up early with a return code.  What it
wrote before it gave up stays written.
-/

namespace CLib

/-- How a call ends. -/
inductive Outcome (α : Type) where
  /-- It returns. -/
  | returned (a : α)
  /-- It calls `exit (status)`. -/
  | exited (status : Nat)
  /-- It steps outside the memory it was given. -/
  | fault
  /-- It has not ended within the fuel. -/
  | outOfFuel
deriving DecidableEq

namespace Outcome

variable {α β : Type}

/-- Run one call after another. -/
def bind (x : Outcome α) (f : α → Outcome β) : Outcome β :=
  match x with
  | returned a => f a
  | exited status => exited status
  | fault => fault
  | outOfFuel => outOfFuel

instance : Monad Outcome where
  pure := returned
  bind := bind

@[simp] theorem pure_eq (a : α) : (pure a : Outcome α) = returned a := rfl

@[simp] theorem returned_bind (a : α) (f : α → Outcome β) : (returned a >>= f) = f a := rfl

@[simp] theorem exited_bind (status : Nat) (f : α → Outcome β) :
    (exited status >>= f) = exited status := rfl

@[simp] theorem fault_bind (f : α → Outcome β) : (fault >>= f) = fault := rfl

@[simp] theorem outOfFuel_bind (f : α → Outcome β) : (outOfFuel >>= f) = outOfFuel := rfl

/-- A sequence of three calls. -/
theorem bind_assoc {γ : Type} (x : Outcome α) (f : α → Outcome β) (g : β → Outcome γ) :
    (x >>= f) >>= g = x >>= fun a => f a >>= g := by
  cases x with
  | returned a => rfl
  | exited status => rfl
  | fault => rfl
  | outOfFuel => rfl

/-- A sequence returns exactly when both of its parts do. -/
theorem bind_eq_returned {x : Outcome α} {f : α → Outcome β} {b : β} :
    x >>= f = returned b ↔ ∃ a, x = returned a ∧ f a = returned b := by
  cases x with
  | returned a => simp
  | exited status => simp
  | fault => simp
  | outOfFuel => simp

theorem returned_ne_outOfFuel (a : α) : returned a ≠ outOfFuel := nofun

/-- It returns a value that passes a test. -/
def returnedWith (p : α → Bool) : Outcome α → Bool
  | returned a => p a
  | exited _ => false
  | fault => false
  | outOfFuel => false

theorem exists_of_returnedWith {x : Outcome α} {p : α → Bool} (h : x.returnedWith p = true) :
    ∃ a, x = returned a ∧ p a = true := by
  cases x with
  | returned a => exact ⟨a, rfl, h⟩
  | exited status => cases h
  | fault => cases h
  | outOfFuel => cases h

/-- A sequence ends if both of its parts do. -/
theorem bind_ne_outOfFuel {x : Outcome α} {f : α → Outcome β} (hx : x ≠ outOfFuel)
    (hf : ∀ a, x = returned a → f a ≠ outOfFuel) : x >>= f ≠ outOfFuel := by
  cases x with
  | returned a => exact hf a rfl
  | exited status => exact nofun
  | fault => exact nofun
  | outOfFuel => exact absurd rfl hx

end Outcome

/-- A call that succeeds returns a value. -/
theorem exists_ok_of_isOk {ε α : Type} {x : Except ε α} (h : x.isOk = true) : ∃ a, x = .ok a := by
  cases x with
  | ok a => exact ⟨a, rfl⟩
  | error e => cases h

/-- What a call wrote, and how it ended: with a value, or with an early return
of a code. -/
structure Emit (α : Type) where
  /-- The bytes written. -/
  out : Bytes
  /-- How it ended. -/
  result : Outcome (Except Int α)

namespace Emit

variable {α β : Type}

/-- The same call with bytes written before it. -/
def prepend (bs : Bytes) (x : Emit α) : Emit α := ⟨bs ++ x.out, x.result⟩

/-- Run one call after another; an early return ends the sequence. -/
def bind (x : Emit α) (f : α → Emit β) : Emit β :=
  match x.result with
  | .returned (.ok a) => (f a).prepend x.out
  | .returned (.error code) => ⟨x.out, .returned (.error code)⟩
  | .exited status => ⟨x.out, .exited status⟩
  | .fault => ⟨x.out, .fault⟩
  | .outOfFuel => ⟨x.out, .outOfFuel⟩

instance : Monad Emit where
  pure a := ⟨[], .returned (.ok a)⟩
  bind := bind

/-- `return code`. -/
def fail (code : Int) : Emit α := ⟨[], .returned (.error code)⟩

/-- Write all of the bytes. -/
def write (bs : Bytes) : Emit Unit := ⟨bs, .returned (.ok ())⟩

/-- A call that writes nothing. -/
def call (x : Outcome α) : Emit α := ⟨[], x >>= fun a => .returned (.ok a)⟩

/-- Return early with the code of an error. -/
def lift (x : Except Int α) : Emit α := ⟨[], .returned x⟩

@[simp] theorem fail_bind (code : Int) (f : α → Emit β) :
    ((fail code : Emit α) >>= f) = fail code := rfl

@[simp] theorem pure_bind (a : α) (f : α → Emit β) : ((pure a : Emit α) >>= f) = f a := by
  change prepend [] (f a) = f a
  rfl

@[simp] theorem lift_ok (a : α) : lift (.ok a : Except Int α) = pure a := rfl

@[simp] theorem lift_error (code : Int) : (lift (.error code) : Emit α) = fail code := rfl

@[simp] theorem call_returned (a : α) : call (.returned a) = pure a := rfl

@[simp] theorem write_bind (bs : Bytes) (f : Unit → Emit β) :
    (write bs >>= f) = (f ()).prepend bs := rfl

/-- A call that has succeeded, and the rest. -/
theorem ok_bind (bs : Bytes) (a : α) (f : α → Emit β) :
    ((⟨bs, .returned (.ok a)⟩ : Emit α) >>= f) = (f a).prepend bs := rfl

@[simp] theorem bind_pure (x : Emit α) : (x >>= pure) = x := by
  obtain ⟨out, result⟩ := x
  change bind ⟨out, result⟩ pure = ⟨out, result⟩
  cases result with
  | returned r =>
      cases r with
      | ok a =>
          change (⟨out ++ [], .returned (.ok a)⟩ : Emit α) = _
          rw [List.append_nil]
      | error code => rfl
  | exited status => rfl
  | fault => rfl
  | outOfFuel => rfl

@[simp] theorem prepend_bind (bs : Bytes) (x : Emit α) (f : α → Emit β) :
    (x.prepend bs >>= f) = (x >>= f).prepend bs := by
  obtain ⟨out, result⟩ := x
  change bind (prepend bs ⟨out, result⟩) f = prepend bs (bind ⟨out, result⟩ f)
  cases result with
  | returned r =>
      cases r with
      | ok a => simp [bind, prepend]
      | error code => rfl
  | exited status => rfl
  | fault => rfl
  | outOfFuel => rfl

@[simp] theorem prepend_prepend (bs cs : Bytes) (x : Emit α) :
    (x.prepend cs).prepend bs = x.prepend (bs ++ cs) := by
  simp [prepend]

@[simp] theorem prepend_nil (x : Emit α) : x.prepend [] = x := rfl

/-- Bytes, and then a value. -/
theorem prepend_pure (bs : Bytes) (a : α) :
    (pure a : Emit α).prepend bs = ⟨bs, .returned (.ok a)⟩ := by
  change (⟨bs ++ [], _⟩ : Emit α) = _
  rw [List.append_nil]
  rfl

@[simp] theorem out_prepend (bs : Bytes) (x : Emit α) : (x.prepend bs).out = bs ++ x.out := rfl

@[simp] theorem result_prepend (bs : Bytes) (x : Emit α) : (x.prepend bs).result = x.result := rfl

@[simp] theorem out_pure (a : α) : (pure a : Emit α).out = [] := rfl

@[simp] theorem result_pure (a : α) : (pure a : Emit α).result = .returned (.ok a) := rfl

@[simp] theorem result_fail (code : Int) :
    (fail code : Emit α).result = .returned (.error code) := rfl

end Emit

end CLib
