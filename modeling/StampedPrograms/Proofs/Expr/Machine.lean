import Mathlib.Logic.Relation
import StampedPrograms.Expr.Parser
import StampedPrograms.Proofs.Token.Offending

/-!
The parser as a machine that keeps its own books. Calls that wait for another one lie as frames on a stack, the place
in the tokens is a position, and levels of nesting are counted up and down instead of being handed on. No step goes
back in the tokens, touches what lies below the call that it is in, or fails on anything but a token that is ahead.
-/

namespace StampedPrograms.Expr

/-- The functions of the parser. -/
inductive Routine where
  | expression
  | chain (levels : List Level)
  | unary
  | suffixed
  | primary
  | param
  | arguments (name : String)

/-- A call that waits for the one it made, by what it does with the tree it is waiting for. -/
inductive Frame where
  | condition
  | outcome (cond : Expr)
  | alternative (cond yes : Expr)
  | operand (level : Level) (levels : List Level) (before : Option (BinaryOp × Expr)) (links : Nat)
  | prefixed (op : UnaryOp)
  | first
  | second (left : Expr)
  | group
  | argument (name : String) (before : List Expr)

/-- What the machine does next. After a level is taken for a call that is to wait in a frame, the limit is still to be
checked; `overdrawn` is the end of a machine that would give back more levels than it has. -/
inductive Control where
  | call (routine : Routine)
  | entered (frame : Frame) (routine : Routine)
  | back (e : Expr)
  | failed (error : Error)
  | overdrawn

structure Machine where
  control : Control
  frames : List Frame
  position : Nat
  nesting : Nat

/-- The operand linked to the chain before it. -/
def linked (before : Option (BinaryOp × Expr)) (e : Expr) : Expr :=
  match before with
  | none => e
  | some (op, left) => .binary op left e

namespace Machine

/-- The machine at the beginning. -/
def start : Machine :=
  ⟨.call .expression, [], 0, 0⟩

variable (m : Machine)

def advance : Machine :=
  { m with position := m.position + 1 }

def pop : Machine :=
  { m with frames := m.frames.tail }

def call (routine : Routine) : Machine :=
  { m with control := .call routine }

def back (e : Expr) : Machine :=
  { m with control := .back e }

def fail (error : Error) : Machine :=
  { m with control := .failed error }

/-- Waits in the frame for a call. -/
def push (frame : Frame) (routine : Routine) : Machine :=
  { m with control := .call routine, frames := frame :: m.frames }

/-- Takes a level to wait in the frame for a call. -/
def enter (frame : Frame) (routine : Routine) : Machine :=
  { m with control := .entered frame routine, nesting := m.nesting + 1 }

/-- Gives levels back and comes back with a tree. -/
def leave (levels : Nat) (e : Expr) : Machine :=
  if levels ≤ m.nesting then { m with control := .back e, nesting := m.nesting - levels }
  else { m with control := .overdrawn }

/-- Goes on after a token of this kind, which must be the next one. -/
def expecting (kind : Token.Kind) (rest : List Token) (goOn : Machine → Machine) : Machine :=
  match rest with
  | [] => m.fail (.badSyntax (.endFor kind.shown) none)
  | token :: _ =>
      if token.kind = kind then goOn m.advance
      else m.advance.fail (.badSyntax (.expected kind.shown token.shown token.offset) (some token.shown))

/-- A name after which the machine stands. -/
def name (token : Token) (name : String) : Machine :=
  if name = "_score" then m.back .score
  else if name = "true" then m.back (.bool true)
  else if name = "false" then m.back (.bool false)
  else if name = "null" then m.back .null
  else if name = "params" then m.call .param
  else m.fail (.badSyntax (.unexpectedName token.shown token.offset) (some token.shown))

/-- The beginning of a primary in front of these tokens. -/
def primary : List Token → Machine
  | [] => m.fail (.badSyntax .endForExpression none)
  | token :: _ =>
      match token.kind with
      | .leftParen => m.advance.push .group .expression
      | .number text => m.advance.back (.number text)
      | .string text => m.advance.back (.string text)
      | .call name => m.advance.call (.arguments name)
      | .ident name => m.advance.name token name
      | _ => m.advance.fail (.badSyntax (.unexpectedToken token.shown token.offset) (some token.shown))

/-- A call in front of these tokens, up to the first call that it makes. -/
def run (rest : List Token) : Routine → Machine
  | .expression => m.enter .condition (.chain Level.all)
  | .chain [] => m.call .unary
  | .chain (level :: levels) => m.push (.operand level levels none 0) (.chain levels)
  | .unary =>
      match prefixOp? rest with
      | some (op, _) => m.advance.enter (.prefixed op) .unary
      | none => m.call .suffixed
  | .suffixed => m.push .first .primary
  | .primary => m.primary rest
  | .param =>
      m.expecting .dot rest fun m =>
        match rest.tail with
        | [] => m.fail (.badSyntax .endForParameter none)
        | token :: _ =>
            match token.kind with
            | .ident name => m.advance.back (.param name)
            | _ =>
                m.advance.fail (.badSyntax (.expectedParameter token.shown token.offset) (some token.shown))
  | .arguments name =>
      m.expecting .leftParen rest fun m =>
        match next? .rightParen rest.tail with
        | some _ => m.advance.back (.call name [])
        | none => m.push (.argument name []) .expression

/-- A call that has waited on top of the stack for this tree, in front of these tokens. -/
def resume (rest : List Token) (e : Expr) : Frame → Machine
  | .condition =>
      match next? .question rest with
      | some _ => m.advance.pop.push (.outcome e) .expression
      | none => m.pop.leave 1 e
  | .outcome cond => m.expecting .colon rest fun m => m.pop.push (.alternative cond e) .expression
  | .alternative cond yes => m.pop.leave 1 (.ternary cond yes e)
  | .operand level levels before links =>
      match level.link? rest with
      | some (op, _) =>
          m.advance.pop.enter (.operand level levels (some (op, linked before e)) (links + 1)) (.chain levels)
      | none => m.pop.leave links (linked before e)
  | .prefixed op => m.pop.leave 1 (.unary op e)
  | .first =>
      match next? (.op "??") rest with
      | some _ => m.advance.pop.push (.second e) .primary
      | none => m.pop.back e
  | .second left => m.pop.back (.coalesce left e)
  | .group => m.expecting .rightParen rest fun m => m.pop.back e
  | .argument name before =>
      match next? .comma rest with
      | some _ => m.advance.pop.push (.argument name (before ++ [e])) .expression
      | none => m.expecting .rightParen rest fun m => m.pop.back (.call name (before ++ [e]))

end Machine

/-- One step of the machine on these tokens, unless it has stopped. -/
def step (tokens : List Token) (m : Machine) : Option Machine :=
  match m.control with
  | .call routine => some (m.run (tokens.drop m.position) routine)
  | .entered frame routine =>
      if maxNesting < m.nesting then some (m.fail (tooNested (tokens.drop m.position)))
      else some (m.push frame routine)
  | .back e => m.frames.head?.map (m.resume (tokens.drop m.position) e)
  | .failed _ => none
  | .overdrawn => none

/-- Some number of steps. -/
abbrev Steps (tokens : List Token) : Machine → Machine → Prop :=
  Relation.ReflTransGen fun m m' => step tokens m = some m'

/-! ### Calls -/

/-- The call that was made on these frames has come back. -/
def Machine.ReturnedTo (m : Machine) (frames : List Frame) : Prop :=
  m.frames = frames ∧ ∃ e, m.control = .back e

/-- Some number of steps before the call that was made on these frames has come back, or up to its coming back. -/
abbrev During (tokens : List Token) (frames : List Frame) : Machine → Machine → Prop :=
  Relation.ReflTransGen fun m m' => ¬ m.ReturnedTo frames ∧ step tokens m = some m'

variable {tokens rest : List Token} {frames : List Frame} {m m' : Machine}

theorem During.steps (h : During tokens frames m m') : Steps tokens m m' :=
  Relation.ReflTransGen.mono (fun _ _ h => h.2) _ _ h

/-! ### One step -/

/-- The token of the error, if it has one, is one of these tokens, and the fault points at it. -/
def Blames (tokens : List Token) : Error → Prop
  | .badSyntax fault (some shown) =>
      ∃ token ∈ tokens, token.shown = shown ∧ fault.PointsAt shown token.offset
  | _ => True

theorem Blames.mono {error : Error} (h : Blames rest error) (hrest : rest ⊆ tokens) : Blames tokens error := by
  unfold Blames at h ⊢
  split at h
  · obtain ⟨token, htoken, hpoints⟩ := h
    exact ⟨token, hrest htoken, hpoints⟩
  · trivial

theorem blames_tooNested (rest : List Token) : Blames rest (tooNested rest) := by
  cases rest with
  | nil => trivial
  | cons token rest => exact ⟨token, List.mem_cons_self .., rfl, trivial⟩

/-- Where a step has led to from a place with these tokens ahead: some frames are not touched, the position has not
gone back, and if the machine has failed, then on one of the tokens or at their end. -/
structure Onward (kept : List Frame) (rest : List Token) (position : Nat) (m : Machine) : Prop where
  suffix : kept <:+ m.frames
  position_le : position ≤ m.position
  blames : ∀ error, m.control = .failed error → Blames rest error

section Onward

variable {kept : List Frame} {position : Nat}

theorem Onward.mono (h : Onward kept rest position m) (hrest : rest ⊆ tokens) : Onward kept tokens position m :=
  { h with blames := fun error hfailed => (h.blames error hfailed).mono hrest }

theorem onward_going (hkept : kept <:+ m.frames) (hposition : position ≤ m.position)
    (hgoing : ∀ error, m.control ≠ .failed error) : Onward kept rest position m :=
  ⟨hkept, hposition, fun error hfailed => absurd hfailed (hgoing error)⟩

theorem onward_ended {fault : SyntaxFault} (hkept : kept <:+ m.frames) (hposition : position ≤ m.position) :
    Onward kept rest position (m.fail (.badSyntax fault none)) := by
  refine ⟨hkept, hposition, ?_⟩
  rintro error ⟨⟩
  trivial

theorem onward_refused {fault : SyntaxFault} {token : Token} (hkept : kept <:+ m.frames)
    (hposition : position ≤ m.position) (htoken : token ∈ rest)
    (hpoints : fault.PointsAt token.shown token.offset) :
    Onward kept rest position (m.fail (.badSyntax fault (some token.shown))) := by
  refine ⟨hkept, hposition, ?_⟩
  rintro error ⟨⟩
  exact ⟨token, htoken, rfl, hpoints⟩

theorem onward_leave {levels : Nat} {e : Expr} (hkept : kept <:+ m.frames) (hposition : position ≤ m.position) :
    Onward kept rest position (m.leave levels e) := by
  rw [Machine.leave]
  split <;> exact onward_going hkept hposition fun _ => Control.noConfusion

theorem onward_expecting {kind : Token.Kind} {goOn : Machine → Machine} (hkept : kept <:+ m.frames)
    (hposition : position ≤ m.position) (hgoOn : Onward kept rest position (goOn m.advance)) :
    Onward kept rest position (m.expecting kind rest goOn) := by
  unfold Machine.expecting
  split
  · exact onward_ended hkept hposition
  · split
    · exact hgoOn
    · exact onward_refused hkept (Nat.le_succ_of_le hposition) (List.mem_cons_self ..) ⟨rfl, rfl⟩

theorem onward_name {token : Token} {name : String} (hkept : kept <:+ m.frames) (hposition : position ≤ m.position)
    (htoken : token ∈ rest) : Onward kept rest position (m.name token name) := by
  unfold Machine.name
  split
  · exact onward_going hkept hposition fun _ => Control.noConfusion
  split
  · exact onward_going hkept hposition fun _ => Control.noConfusion
  split
  · exact onward_going hkept hposition fun _ => Control.noConfusion
  split
  · exact onward_going hkept hposition fun _ => Control.noConfusion
  split
  · exact onward_going hkept hposition fun _ => Control.noConfusion
  · exact onward_refused hkept hposition htoken ⟨rfl, rfl⟩

theorem onward_primary (m : Machine) (rest : List Token) : Onward m.frames rest m.position (m.primary rest) := by
  unfold Machine.primary
  split
  · exact onward_ended List.suffix_rfl (Nat.le_refl _)
  · split
    · exact onward_going (List.suffix_cons ..) (Nat.le_succ _) fun _ => Control.noConfusion
    · exact onward_going List.suffix_rfl (Nat.le_succ _) fun _ => Control.noConfusion
    · exact onward_going List.suffix_rfl (Nat.le_succ _) fun _ => Control.noConfusion
    · exact onward_going List.suffix_rfl (Nat.le_succ _) fun _ => Control.noConfusion
    · exact onward_name List.suffix_rfl (Nat.le_succ _) (List.mem_cons_self ..)
    · exact onward_refused List.suffix_rfl (Nat.le_succ _) (List.mem_cons_self ..) ⟨rfl, rfl⟩

/-- A call leaves the stack below it as it is. -/
theorem onward_run (m : Machine) (rest : List Token) (routine : Routine) :
    Onward m.frames rest m.position (m.run rest routine) := by
  cases routine with
  | expression => exact onward_going List.suffix_rfl (Nat.le_refl _) fun _ => Control.noConfusion
  | chain levels =>
      cases levels with
      | nil => exact onward_going List.suffix_rfl (Nat.le_refl _) fun _ => Control.noConfusion
      | cons level levels => exact onward_going (List.suffix_cons ..) (Nat.le_refl _) fun _ => Control.noConfusion
  | unary =>
      rw [Machine.run]
      split
      · exact onward_going List.suffix_rfl (Nat.le_succ _) fun _ => Control.noConfusion
      · exact onward_going List.suffix_rfl (Nat.le_refl _) fun _ => Control.noConfusion
  | suffixed => exact onward_going (List.suffix_cons ..) (Nat.le_refl _) fun _ => Control.noConfusion
  | primary => exact onward_primary m rest
  | param =>
      rw [Machine.run]
      refine onward_expecting List.suffix_rfl (Nat.le_refl _) ?_
      split
      · exact onward_ended List.suffix_rfl (Nat.le_succ _)
      · next token after hrest =>
          have htoken : token ∈ rest.tail := hrest ▸ List.mem_cons_self ..
          split
          · exact onward_going List.suffix_rfl (Nat.le_add_right m.position 2) fun _ => Control.noConfusion
          · exact onward_refused List.suffix_rfl (Nat.le_add_right m.position 2) (List.mem_of_mem_tail htoken)
              ⟨rfl, rfl⟩
  | arguments name =>
      rw [Machine.run]
      refine onward_expecting List.suffix_rfl (Nat.le_refl _) ?_
      split
      · exact onward_going List.suffix_rfl (Nat.le_add_right m.position 2) fun _ => Control.noConfusion
      · exact onward_going (List.suffix_cons ..) (Nat.le_succ _) fun _ => Control.noConfusion

/-- A call that goes on leaves the stack below its frame as it is. -/
theorem onward_resume (m : Machine) (rest : List Token) (e : Expr) (frame : Frame) :
    Onward m.frames.tail rest m.position (m.resume rest e frame) := by
  have htail := List.tail_suffix m.frames
  cases frame with
  | condition =>
      rw [Machine.resume]
      split
      · exact onward_going (List.suffix_cons ..) (Nat.le_succ _) fun _ => Control.noConfusion
      · exact onward_leave List.suffix_rfl (Nat.le_refl _)
  | outcome cond =>
      rw [Machine.resume]
      refine onward_expecting htail (Nat.le_refl _) ?_
      exact onward_going (List.suffix_cons ..) (Nat.le_succ _) fun _ => Control.noConfusion
  | operand level levels before links =>
      rw [Machine.resume]
      split
      · exact onward_going List.suffix_rfl (Nat.le_succ _) fun _ => Control.noConfusion
      · exact onward_leave List.suffix_rfl (Nat.le_refl _)
  | first =>
      rw [Machine.resume]
      split
      · exact onward_going (List.suffix_cons ..) (Nat.le_succ _) fun _ => Control.noConfusion
      · exact onward_going List.suffix_rfl (Nat.le_refl _) fun _ => Control.noConfusion
  | alternative | prefixed => exact onward_leave List.suffix_rfl (Nat.le_refl _)
  | second => exact onward_going List.suffix_rfl (Nat.le_refl _) fun _ => Control.noConfusion
  | group =>
      rw [Machine.resume]
      refine onward_expecting htail (Nat.le_refl _) ?_
      exact onward_going List.suffix_rfl (Nat.le_succ _) fun _ => Control.noConfusion
  | argument name before =>
      rw [Machine.resume]
      split
      · exact onward_going (List.suffix_cons ..) (Nat.le_succ _) fun _ => Control.noConfusion
      · refine onward_expecting htail (Nat.le_refl _) ?_
        exact onward_going List.suffix_rfl (Nat.le_succ _) fun _ => Control.noConfusion

end Onward

/-- The frames that a step from here leaves as they are. -/
def Machine.kept (m : Machine) : List Frame :=
  match m.control with
  | .back _ => m.frames.tail
  | _ => m.frames

theorem onward_step (hstep : step tokens m = some m') : Onward m.kept tokens m.position m' := by
  have hahead := List.drop_subset m.position tokens
  obtain ⟨control, frames, position, nesting⟩ := m
  cases control with
  | call routine =>
      cases hstep
      exact (onward_run _ _ routine).mono hahead
  | entered frame routine =>
      rw [step] at hstep
      dsimp only at hstep
      split at hstep
      · cases hstep
        refine ⟨List.suffix_rfl, Nat.le_refl _, ?_⟩
        rintro error ⟨⟩
        exact (blames_tooNested _).mono hahead
      · cases hstep
        exact onward_going (List.suffix_cons ..) (Nat.le_refl _) fun _ => Control.noConfusion
  | back e =>
      cases frames with
      | nil => cases hstep
      | cons frame frames =>
          cases hstep
          exact (onward_resume ⟨.back e, frame :: frames, position, nesting⟩ _ e frame).mono hahead
  | failed => cases hstep
  | overdrawn => cases hstep

/-- Nothing below the frames of a call is touched before it comes back. -/
theorem suffix_step (h : frames <:+ m.frames) (hreturned : ¬ m.ReturnedTo frames)
    (hstep : step tokens m = some m') : frames <:+ m'.frames := by
  refine List.IsSuffix.trans ?_ (onward_step hstep).suffix
  obtain ⟨control, stack, position, nesting⟩ := m
  cases control with
  | back e =>
      cases stack with
      | nil => cases hstep
      | cons frame stack =>
          rcases List.suffix_cons_iff.mp h with rfl | h
          · exact absurd ⟨rfl, e, rfl⟩ hreturned
          · exact h
  | _ => exact h

/-- What happens before a call comes back happens before its caller does. -/
theorem During.outer {frame : Frame} (h : During tokens (frame :: frames) m m')
    (hframes : frame :: frames <:+ m.frames) : During tokens frames m m' := by
  induction h using Relation.ReflTransGen.head_induction_on with
  | refl => exact .refl
  | head hstep _ ih =>
      obtain ⟨hreturned, hstep⟩ := hstep
      refine .head ⟨?_, hstep⟩ (ih (suffix_step hframes hreturned hstep))
      rintro ⟨hsame, -⟩
      have hlength := hframes.length_le
      rw [hsame, List.length_cons] at hlength
      omega

end StampedPrograms.Expr
