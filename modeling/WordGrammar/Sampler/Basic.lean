import WordGrammar.Generation.Event
import WordGrammar.Generation.Failure
import WordGrammar.Weight

namespace WordGrammar

/-- What can be drawn. -/
inductive Draw where
  /-- A whole number from zero to the bound, both included (`gen_range`). -/
  | upTo (bound : Nat)
  /-- A number from zero to one, excluding one (`gen`). -/
  | fraction
deriving DecidableEq, Repr

/-- The answers that a draw may get. -/
abbrev Draw.Answer : Draw → Type
  | .upTo bound => Fin (bound + 1)
  | .fraction => Share

/-- A computation that draws at random, tells events, and may stop without a result. It is the tree
    of all its runs: each draw branches into one subtree for every answer that may come. -/
inductive Sampler (α : Type) where
  | done (a : α)
  | stop (why : Stop)
  | draw (d : Draw) (next : d.Answer → Sampler α)
  | note (event : Event) (rest : Sampler α)

namespace Sampler

variable {α β γ : Type}

/-- Goes on with the result. -/
def bind : Sampler α → (α → Sampler β) → Sampler β
  | .done a, f => f a
  | .stop why, _ => .stop why
  | .draw d next, f => .draw d fun answer => (next answer).bind f
  | .note event rest, f => .note event (rest.bind f)

instance : Monad Sampler where
  pure := .done
  bind := bind

/-- The answer to a draw. -/
def ask (d : Draw) : Sampler d.Answer := .draw d .done

/-- Tells an event. -/
def tell (event : Event) : Sampler Unit := .note event (.done ())

/-- Something that may be at fault, without any draw. -/
def ofExcept : Except Fault α → Sampler α
  | .ok a => .done a
  | .error fault => .stop (.faulted fault)

@[simp] theorem pure_eq (a : α) : (pure a : Sampler α) = .done a := rfl

@[simp] theorem done_bind (a : α) (f : α → Sampler β) : (Sampler.done a >>= f) = f a := rfl

@[simp] theorem stop_bind (why : Stop) (f : α → Sampler β) :
    (Sampler.stop why >>= f) = .stop why := rfl

@[simp] theorem draw_bind (d : Draw) (next : d.Answer → Sampler α) (f : α → Sampler β) :
    (Sampler.draw d next >>= f) = .draw d fun answer => next answer >>= f := rfl

@[simp] theorem note_bind (event : Event) (rest : Sampler α) (f : α → Sampler β) :
    (Sampler.note event rest >>= f) = .note event (rest >>= f) := rfl

theorem bind_done (p : Sampler α) : (p >>= .done) = p := by
  induction p with
  | done a => rfl
  | stop why => rfl
  | draw d next ih => simp [ih]
  | note event rest ih => simp [ih]

theorem bind_bind (p : Sampler α) (f : α → Sampler β) (g : β → Sampler γ) :
    ((p >>= f) >>= g) = (p >>= fun a => f a >>= g) := by
  induction p with
  | done a => rfl
  | stop why => rfl
  | draw d next ih => simp [ih]
  | note event rest ih => simp [ih]

instance : LawfulMonad Sampler :=
  LawfulMonad.mk' Sampler bind_done (fun _ _ => rfl) bind_bind

end Sampler

end WordGrammar
