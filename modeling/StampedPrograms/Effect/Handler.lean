import StampedPrograms.Error

/-!
The storage that programs act on, as the host provides it. A handler answers three kinds of calls;
it may refuse, and it may change its state whatever it answers.
-/

namespace StampedPrograms

structure Handler (σ : Type) where
  get : (store : String) → (key : Json) → σ → Except Error (Option Json) × σ
  put : (store : String) → (value : Json) → σ → Except Error Json × σ
  query : (store : String) → (spec : Json) → σ → Except Error (List Json) × σ

/-- A call that a handler received, and its answer. -/
inductive HandlerCall where
  | get (store : String) (key : Json) (answer : Except Error (Option Json))
  | put (store : String) (value : Json) (answer : Except Error Json)
  | query (store : String) (spec : Json) (answer : Except Error (List Json))

/-- The handler that also keeps the calls it received, the latest last. -/
def Handler.recorded {σ : Type} (handler : Handler σ) : Handler (σ × List HandlerCall) where
  get store key state :=
    let (answer, next) := handler.get store key state.1
    (answer, next, state.2 ++ [.get store key answer])
  put store value state :=
    let (answer, next) := handler.put store value state.1
    (answer, next, state.2 ++ [.put store value answer])
  query store spec state :=
    let (answer, next) := handler.query store spec state.1
    (answer, next, state.2 ++ [.query store spec answer])

end StampedPrograms
