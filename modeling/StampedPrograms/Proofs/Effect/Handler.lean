import StampedPrograms.Effect.Handler
import StampedPrograms.Proofs.Error
import StampedPrograms.Proofs.Json.Alike

/-!
Handlers that answer alike calls alike.
-/

namespace StampedPrograms

variable {σ : Type}

/-- Two answers of a handler and the states after them. -/
def Answered {α : Type} (S : α → α → Prop) (R : σ → σ → Prop) (x y : Except Error α × σ) : Prop :=
  Related S x.1 y.1 ∧ R x.2 y.2

/-- A handler that cannot tell alike documents apart, with states that it cannot tell apart either. -/
structure Handler.Respects (handler : Handler σ) (R : σ → σ → Prop) : Prop where
  get : ∀ store {a b s t}, Json.Alike a b → R s t →
    Answered (fun x y => x.map Value.inOrder = y.map Value.inOrder) R (handler.get store a s)
      (handler.get store b t)
  put : ∀ store {a b s t}, Json.Alike a b → R s t →
    Answered Json.Alike R (handler.put store a s) (handler.put store b t)
  query : ∀ store {a b s t}, Json.Alike a b → R s t →
    Answered (fun xs ys => xs.map Value.inOrder = ys.map Value.inOrder) R (handler.query store a s)
      (handler.query store b t)

end StampedPrograms
