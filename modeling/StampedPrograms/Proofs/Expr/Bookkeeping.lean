import StampedPrograms.Proofs.Expr.Returns

/-!
The books of the parser's machine. Before and after every call the nesting is the number of levels that the waiting
calls hold, so that none is given back twice, and a frame is only put on the stack while its caller has room for it,
so that open calls bound the stack. Every state that the machine comes to satisfies this.
-/

namespace StampedPrograms.Expr

/-- The levels that a waiting call has taken and not given back. -/
def Frame.levels : Frame → Nat
  | .condition | .outcome _ | .alternative .. | .prefixed _ => 1
  | .operand _ _ _ links => links
  | .first | .second _ | .group | .argument .. => 0

/-- Whether the waiting call is of an expression or has read a prefix operator, and so is inside a level of its own. -/
def Frame.opened : Frame → Bool
  | .condition | .outcome _ | .alternative .. | .prefixed _ => true
  | .operand .. | .first | .second _ | .group | .argument .. => false

/-- The function whose call waits. -/
def Frame.routine : Frame → Routine
  | .condition | .outcome _ | .alternative .. => .expression
  | .operand level levels _ _ => .chain (level :: levels)
  | .prefixed _ => .unary
  | .first | .second _ => .suffixed
  | .group => .primary
  | .argument name _ => .arguments name

/-- All levels that the waiting calls hold. -/
def held : List Frame → Nat
  | [] => 0
  | frame :: frames => frame.levels + held frames

/-- The calls of expressions and behind prefix operators that have not come back. -/
def openCalls (frames : List Frame) : Nat :=
  frames.countP Frame.opened

/-- How many frames a call may put on the stack before the next call of an expression. -/
def Routine.room : Routine → Nat
  | .expression => 0
  | .chain levels => levels.length + 2
  | .unary | .suffixed => 2
  | .primary | .param | .arguments _ => 1

/-- A call on these frames keeps within nine frames for every open call. -/
def HasRoom (frames : List Frame) (routine : Routine) : Prop :=
  frames.length + routine.room ≤ 9 * openCalls frames

/-- Every waiting call was made where it had room. -/
def Shallow : List Frame → Prop
  | [] => True
  | frame :: frames => HasRoom frames frame.routine ∧ Shallow frames

variable {tokens : List Token} {frames : List Frame} {frame frame' : Frame} {routine : Routine}
variable {position nesting limit : Nat} {m m' : Machine}

theorem openCalls_le_held (frames : List Frame) : openCalls frames ≤ held frames := by
  induction frames with
  | nil => exact Nat.le_refl 0
  | cons frame frames ih =>
      rw [openCalls, List.countP_cons, held]
      have hframe : (if frame.opened then 1 else 0) ≤ frame.levels := by
        cases frame <;> simp [Frame.opened, Frame.levels]
      rw [openCalls] at ih
      omega

theorem HasRoom.push (h : HasRoom frames frame.routine)
    (hroom : routine.room < frame.routine.room + 9 * if frame.opened then 1 else 0) :
    HasRoom (frame :: frames) routine := by
  rw [HasRoom, openCalls] at h ⊢
  rw [List.countP_cons, List.length_cons]
  omega

theorem Shallow.length_le (h : Shallow frames) : frames.length ≤ 9 * openCalls frames := by
  cases frames with
  | nil => exact Nat.zero_le _
  | cons frame frames =>
      obtain ⟨hroom, -⟩ := h
      have hexpression : HasRoom (frame :: frames) .expression :=
        hroom.push (by cases frame <;> simp [Frame.opened, Frame.routine, Routine.room])
      exact hexpression

theorem Shallow.below (above : List Frame) (h : Shallow (above ++ frames)) : Shallow frames := by
  induction above with
  | nil => exact h
  | cons frame above ih => exact ih h.2

/-- The books agree: the machine stands within the tokens, and its nesting is what its waiting calls hold. -/
structure Settled (tokens : List Token) (limit : Nat) (frames : List Frame) (position nesting : Nat) : Prop where
  position_le : position ≤ tokens.length
  nesting_eq : nesting = held frames
  nesting_le : nesting ≤ limit
  shallow : Shallow frames

namespace Settled

theorem advance (h : Settled tokens limit frames position nesting) (hlt : position < tokens.length) :
    Settled tokens limit frames (position + 1) nesting :=
  { h with position_le := hlt }

/-- A call waits that has taken no level. -/
theorem push (h : Settled tokens limit frames position nesting) (frame : Frame) (hroom : HasRoom frames frame.routine)
    (hlevels : frame.levels = 0) : Settled tokens limit (frame :: frames) position nesting where
  position_le := h.position_le
  nesting_eq := by rw [held, hlevels, Nat.zero_add, h.nesting_eq]
  nesting_le := h.nesting_le
  shallow := ⟨hroom, h.shallow⟩

/-- A call takes a level, which may be one too many. -/
theorem enter (h : Settled tokens limit frames position nesting) (frame : Frame) (hroom : HasRoom frames frame.routine)
    (hlevels : frame.levels = 1) : Settled tokens (limit + 1) (frame :: frames) position (nesting + 1) where
  position_le := h.position_le
  nesting_eq := by rw [held, hlevels, Nat.add_comm, h.nesting_eq]
  nesting_le := Nat.succ_le_succ h.nesting_le
  shallow := ⟨hroom, h.shallow⟩

/-- A call that has waited waits for its next one. -/
theorem wait (h : Settled tokens limit (frame :: frames) position nesting) (frame' : Frame)
    (hroutine : frame'.routine = frame.routine) (hlevels : frame'.levels = frame.levels) :
    Settled tokens limit (frame' :: frames) position nesting where
  position_le := h.position_le
  nesting_eq := by rw [held, hlevels, h.nesting_eq, held]
  nesting_le := h.nesting_le
  shallow := ⟨hroutine ▸ h.shallow.1, h.shallow.2⟩

/-- A call that has waited takes one more level to wait for its next one. -/
theorem link (h : Settled tokens limit (frame :: frames) position nesting) (frame' : Frame)
    (hroutine : frame'.routine = frame.routine) (hlevels : frame'.levels = frame.levels + 1) :
    Settled tokens (limit + 1) (frame' :: frames) position (nesting + 1) where
  position_le := h.position_le
  nesting_eq := by
    rw [held, hlevels, h.nesting_eq, held]
    omega
  nesting_le := Nat.succ_le_succ h.nesting_le
  shallow := ⟨hroutine ▸ h.shallow.1, h.shallow.2⟩

/-- A call comes back after it has given back its levels, which it has. -/
theorem pop (h : Settled tokens limit (frame :: frames) position nesting) :
    frame.levels ≤ nesting ∧ Settled tokens limit frames position (nesting - frame.levels) := by
  have hheld := h.nesting_eq
  rw [held] at hheld
  refine ⟨by omega, h.position_le, by omega, ?_, h.shallow.2⟩
  exact Nat.le_trans (Nat.sub_le ..) h.nesting_le

end Settled

/-- What holds in every state of the machine. A level too many is only there until the machine has failed on it. -/
inductive Sound (tokens : List Token) : Machine → Prop
  | call {routine : Routine} {frames : List Frame} {position nesting : Nat} :
      Settled tokens maxNesting frames position nesting → HasRoom frames routine →
      Sound tokens ⟨.call routine, frames, position, nesting⟩
  | entered {frame : Frame} {routine : Routine} {frames : List Frame} {position nesting : Nat} :
      Settled tokens (maxNesting + 1) (frame :: frames) position nesting → HasRoom (frame :: frames) routine →
      Sound tokens ⟨.entered frame routine, frames, position, nesting⟩
  | back {e : Expr} {frames : List Frame} {position nesting : Nat} :
      Settled tokens maxNesting frames position nesting → Sound tokens ⟨.back e, frames, position, nesting⟩
  | failed {error : Error} {frames : List Frame} {position nesting : Nat} :
      Settled tokens maxNesting frames position nesting → Sound tokens ⟨.failed error, frames, position, nesting⟩
  | overrun {frame : Frame} {frames : List Frame} {position : Nat} :
      Settled tokens (maxNesting + 1) (frame :: frames) position (maxNesting + 1) →
      Sound tokens ⟨.failed (tooNested (tokens.drop position)), frames, position, maxNesting + 1⟩

/-! ### One step -/

theorem sound_start (tokens : List Token) : Sound tokens .start :=
  .call ⟨Nat.zero_le _, rfl, Nat.zero_le _, trivial⟩ (Nat.le_refl 0)

theorem sound_leave {control : Control} {e : Expr} {levels : Nat}
    (h : Settled tokens maxNesting (frame :: frames) position nesting) (hlevels : frame.levels = levels) :
    Sound tokens ((Machine.mk control frames position nesting).leave levels e) := by
  subst hlevels
  obtain ⟨hle, hpop⟩ := h.pop
  rw [Machine.leave, if_pos hle]
  exact .back hpop

/-- A call that holds no level comes back. -/
theorem sound_back {e : Expr} (h : Settled tokens maxNesting (frame :: frames) position nesting)
    (hlevels : frame.levels = 0) : Sound tokens ⟨.back e, frames, position, nesting⟩ := by
  obtain ⟨-, hpop⟩ := h.pop
  rw [hlevels] at hpop
  exact .back hpop

theorem sound_expecting {control : Control} {kind : Token.Kind} {goOn : Machine → Machine}
    (h : Settled tokens maxNesting frames position nesting)
    (hgoOn : position < tokens.length → Settled tokens maxNesting frames (position + 1) nesting →
      Sound tokens (goOn ⟨control, frames, position + 1, nesting⟩)) :
    Sound tokens ((Machine.mk control frames position nesting).expecting kind (tokens.drop position) goOn) := by
  generalize hrest : tokens.drop position = rest
  cases rest with
  | nil => exact .failed h
  | cons token after =>
      obtain ⟨hlt, -⟩ := drop_eq_cons hrest
      rw [Machine.expecting]
      split
      · exact hgoOn hlt (h.advance hlt)
      · exact .failed (h.advance hlt)

theorem sound_name {control : Control} (h : Settled tokens maxNesting frames position nesting)
    (hroom : HasRoom frames .primary) (token : Token) (name : String) :
    Sound tokens ((Machine.mk control frames position nesting).name token name) := by
  unfold Machine.name
  split
  · exact .back h
  split
  · exact .back h
  split
  · exact .back h
  split
  · exact .back h
  split
  · exact .call h hroom
  · exact .failed h

theorem sound_primary (h : Settled tokens maxNesting frames position nesting) (hroom : HasRoom frames .primary) :
    Sound tokens ((Machine.mk (.call .primary) frames position nesting).primary (tokens.drop position)) := by
  generalize hrest : tokens.drop position = rest
  cases rest with
  | nil => exact .failed h
  | cons token after =>
      obtain ⟨hlt, -⟩ := drop_eq_cons hrest
      have hnext := h.advance hlt
      rw [Machine.primary]
      split
      · exact .call (hnext.push .group hroom rfl) (HasRoom.push hroom (by decide))
      · exact .back hnext
      · exact .back hnext
      · exact .call hnext hroom
      · exact sound_name hnext hroom token _
      · exact .failed hnext

theorem sound_run (h : Settled tokens maxNesting frames position nesting) (hroom : HasRoom frames routine) :
    Sound tokens ((Machine.mk (.call routine) frames position nesting).run (tokens.drop position) routine) := by
  cases routine with
  | expression => exact .entered (h.enter .condition hroom rfl) (HasRoom.push hroom (by decide))
  | chain levels =>
      cases levels with
      | nil => exact .call h hroom
      | cons level levels =>
          exact .call (h.push (.operand level levels none 0) hroom rfl)
            (HasRoom.push hroom (Nat.lt_succ_self (levels.length + 2)))
  | unary =>
      rw [Machine.run]
      cases hprefix : prefixOp? (tokens.drop position) with
      | none => exact .call h hroom
      | some found =>
          obtain ⟨op, after⟩ := found
          obtain ⟨hlt, -⟩ := prefixOp?_drop hprefix
          exact .entered ((h.advance hlt).enter (.prefixed op) hroom rfl)
            (HasRoom.push hroom (by decide : 2 < 2 + 9 * 1))
  | suffixed => exact .call (h.push .first hroom rfl) (HasRoom.push hroom (by decide))
  | primary => exact sound_primary h hroom
  | param =>
      rw [Machine.run]
      refine sound_expecting h fun hlt hnext => ?_
      rw [List.tail_drop]
      generalize hrest : tokens.drop (position + 1) = rest
      cases rest with
      | nil => exact .failed hnext
      | cons token after =>
          obtain ⟨hlt', -⟩ := drop_eq_cons hrest
          dsimp only
          split
          · exact .back (hnext.advance hlt')
          · exact .failed (hnext.advance hlt')
  | arguments name =>
      rw [Machine.run]
      refine sound_expecting h fun hlt hnext => ?_
      rw [List.tail_drop]
      cases hclose : next? .rightParen (tokens.drop (position + 1)) with
      | some after => exact .back (hnext.advance (next?_drop hclose).1)
      | none =>
          exact .call (hnext.push (.argument name []) hroom rfl)
            (HasRoom.push hroom (by decide : 0 < 1 + 9 * 0))

theorem sound_resume (h : Settled tokens maxNesting (frame :: frames) position nesting) (e : Expr) :
    Sound tokens
      ((Machine.mk (.back e) (frame :: frames) position nesting).resume (tokens.drop position) e frame) := by
  have hroom : HasRoom frames frame.routine := h.shallow.1
  cases frame with
  | condition =>
      rw [Machine.resume]
      cases hquestion : next? .question (tokens.drop position) with
      | none => exact sound_leave h rfl
      | some after =>
          have hnext := h.advance (next?_drop hquestion).1
          exact .call (hnext.wait (.outcome e) rfl rfl) (HasRoom.push hroom (by decide : 0 < 0 + 9 * 1))
  | outcome cond =>
      rw [Machine.resume]
      refine sound_expecting h fun hlt hnext => ?_
      exact .call (hnext.wait (.alternative cond e) rfl rfl) (HasRoom.push hroom (by decide : 0 < 0 + 9 * 1))
  | alternative cond yes => exact sound_leave h rfl
  | operand level levels before links =>
      rw [Machine.resume]
      cases hlink : level.link? (tokens.drop position) with
      | none => exact sound_leave h rfl
      | some found =>
          obtain ⟨op, after⟩ := found
          have hnext := h.advance (link?_drop hlink).1
          exact .entered (hnext.link (.operand level levels (some (op, linked before e)) (links + 1)) rfl rfl)
            (HasRoom.push hroom (Nat.lt_succ_self (levels.length + 2)))
  | prefixed op => exact sound_leave h rfl
  | first =>
      rw [Machine.resume]
      cases hcoalesce : next? (.op "??") (tokens.drop position) with
      | none => exact sound_back h rfl
      | some after =>
          have hnext := h.advance (next?_drop hcoalesce).1
          exact .call (hnext.wait (.second e) rfl rfl) (HasRoom.push hroom (by decide : 1 < 2 + 9 * 0))
  | second left => exact sound_back h rfl
  | group =>
      rw [Machine.resume]
      exact sound_expecting h fun hlt hnext => sound_back hnext rfl
  | argument name before =>
      rw [Machine.resume]
      cases hcomma : next? .comma (tokens.drop position) with
      | none => exact sound_expecting h fun hlt hnext => sound_back hnext rfl
      | some after =>
          have hnext := h.advance (next?_drop hcomma).1
          exact .call (hnext.wait (.argument name (before ++ [e])) rfl rfl)
            (HasRoom.push hroom (by decide : 0 < 1 + 9 * 0))

/-- A level is taken only where there is one, or else the machine fails on it. -/
theorem sound_entered (h : Settled tokens (maxNesting + 1) (frame :: frames) position nesting)
    (hroom : HasRoom (frame :: frames) routine)
    (hstep : step tokens ⟨.entered frame routine, frames, position, nesting⟩ = some m') : Sound tokens m' := by
  rw [step] at hstep
  dsimp only at hstep
  split at hstep
  · next hover =>
      cases hstep
      obtain rfl : nesting = maxNesting + 1 := Nat.le_antisymm h.nesting_le hover
      exact .overrun h
  · next hwithin =>
      cases hstep
      exact .call { h with nesting_le := Nat.le_of_not_lt hwithin } hroom

theorem sound_step (h : Sound tokens m) (hstep : step tokens m = some m') : Sound tokens m' := by
  cases h with
  | call hsettled hroom =>
      cases hstep
      exact sound_run hsettled hroom
  | entered hsettled hroom => exact sound_entered hsettled hroom hstep
  | @back e frames position nesting hsettled =>
      cases frames with
      | nil => cases hstep
      | cons frame frames =>
          cases hstep
          exact sound_resume hsettled e
  | failed => cases hstep
  | overrun => cases hstep

/-- The books are right in every state that the machine comes to. -/
theorem sound_of_steps (h : Steps tokens .start m) : Sound tokens m := by
  induction h with
  | refl => exact sound_start tokens
  | tail _ hstep ih => exact sound_step ih hstep

/-! ### The whole run -/

/-- A call that has come back or failed has no other end. -/
theorem During.unique {last last' : Machine} (h : During tokens frames m last) (h' : During tokens frames m last')
    (hlast : last.ReturnedTo frames ∨ step tokens last = none)
    (hlast' : last'.ReturnedTo frames ∨ step tokens last' = none) : last = last' := by
  have hfunction : Relator.RightUnique fun m m' => ¬ m.ReturnedTo frames ∧ step tokens m = some m' :=
    fun _ _ _ hnext hnext' => Option.some.inj (hnext.2.symm.trans hnext'.2)
  have hover : ∀ {m m' : Machine}, m.ReturnedTo frames ∨ step tokens m = none → During tokens frames m m' → m = m' := by
    intro m m' hm hduring
    rcases hduring.cases_head with heq | ⟨next, ⟨hreturned, hstep⟩, -⟩
    · exact heq
    · rw [hstep] at hm
      simp [hreturned] at hm
  rcases Relation.ReflTransGen.total_of_right_unique hfunction h h' with h | h
  · exact hover hlast h
  · exact (hover hlast' h).symm

/-- A call that comes back has read a token and left the nesting as it was. -/
theorem ends_balanced {last : Machine} {result : Parsed} (h : Ends tokens frames position nesting m result)
    (hduring : During tokens frames m last) (hreturned : last.ReturnedTo frames) :
    position < last.position ∧ last.nesting = nesting := by
  cases result with
  | error error =>
      obtain ⟨m', hfailed, hduring'⟩ := h
      have hstops : step tokens m' = none := by rw [step, hfailed]
      obtain rfl := hduring.unique hduring' (.inl hreturned) (.inr hstops)
      obtain ⟨-, e, hback⟩ := hreturned
      rw [hfailed] at hback
      cases hback
  | ok parsed =>
      obtain ⟨position', hlt, -, -, hduring'⟩ := h
      obtain rfl := hduring.unique hduring' (.inl hreturned) (.inl ⟨rfl, _, rfl⟩)
      exact ⟨hlt, rfl⟩

/-- The books of a machine on these tokens are in order. -/
structure WellKept (tokens : List Token) (m : Machine) : Prop where
  /-- A call comes to its end, and to the same one as the function that it stands for with the levels that are left. -/
  ends {routine : Routine} (h : m.control = .call routine) :
    Ends tokens m.frames m.position m.nesting m (routine.result (maxNesting - m.nesting) (tokens.drop m.position))
  /-- When a call comes back, it has read a token and left the nesting as it was. -/
  balanced {routine : Routine} {last : Machine} (h : m.control = .call routine)
    (hduring : During tokens m.frames m last) (hreturned : last.ReturnedTo m.frames) :
    m.position < last.position ∧ last.nesting = m.nesting
  position_le : m.position ≤ tokens.length
  onward {m' : Machine} (hstep : step tokens m = some m') : m.position ≤ m'.position
  nesting_le : m.nesting ≤ maxNesting + 1
  /-- The level too many is the end of the machine. -/
  exceeded (h : m.nesting = maxNesting + 1) :
    m.control = .failed (tooNested (tokens.drop m.position)) ∨
      step tokens m = some (m.fail (tooNested (tokens.drop m.position)))
  /-- No level is given back that was not taken. -/
  not_overdrawn : m.control ≠ .overdrawn
  openCalls_le : openCalls m.frames ≤ m.nesting
  frames_le : m.frames.length ≤ 9 * openCalls m.frames

/-- The level that a call is taking is already counted, although its frame is not on the stack. -/
theorem Sound.settled (h : Sound tokens m) :
    ∃ entering, Settled tokens (maxNesting + 1) (entering ++ m.frames) m.position m.nesting := by
  have hless : maxNesting ≤ maxNesting + 1 := Nat.le_succ _
  cases h with
  | call hsettled | back hsettled | failed hsettled =>
      exact ⟨[], { hsettled with nesting_le := Nat.le_trans hsettled.nesting_le hless }⟩
  | @entered frame _ _ _ _ hsettled => exact ⟨[frame], hsettled⟩
  | @overrun frame _ _ hsettled => exact ⟨[frame], hsettled⟩

theorem Sound.nesting_le_of_call (h : Sound tokens m) (hcall : m.control = .call routine) :
    m.nesting ≤ maxNesting := by
  cases h with
  | call hsettled => exact hsettled.nesting_le
  | _ => cases hcall

theorem Sound.exceeded (h : Sound tokens m) (hover : m.nesting = maxNesting + 1) :
    m.control = .failed (tooNested (tokens.drop m.position)) ∨
      step tokens m = some (m.fail (tooNested (tokens.drop m.position))) := by
  cases h with
  | call hsettled | back hsettled | failed hsettled =>
      have hle := hsettled.nesting_le
      dsimp only at hover
      omega
  | entered hsettled =>
      refine .inr ?_
      rw [step]
      exact if_pos (hover ▸ Nat.lt_succ_self maxNesting)
  | overrun => exact .inl rfl

theorem Sound.not_overdrawn (h : Sound tokens m) : m.control ≠ .overdrawn := by
  cases h <;> exact Control.noConfusion

/-- The books are in order all the time that an expression is parsed. -/
theorem wellKept (tokens : List Token) (m : Machine) (h : Steps tokens .start m) : WellKept tokens m := by
  have hsound := sound_of_steps h
  obtain ⟨entering, hsettled⟩ := hsound.settled
  have hends : ∀ {routine : Routine}, m.control = .call routine →
      Ends tokens m.frames m.position m.nesting m
        (routine.result (maxNesting - m.nesting) (tokens.drop m.position)) := by
    intro routine hcall
    have hleft := Nat.add_sub_of_le (hsound.nesting_le_of_call hcall)
    have hcalled := @ends_call tokens _ _ hleft routine m.frames m.position
    rwa [← hcall] at hcalled
  exact {
    ends := hends
    balanced := fun hcall => ends_balanced (hends hcall)
    position_le := hsettled.position_le
    onward := fun hstep => (onward_step hstep).position_le
    nesting_le := hsettled.nesting_le
    exceeded := hsound.exceeded
    not_overdrawn := hsound.not_overdrawn
    openCalls_le := by
      have hheld := openCalls_le_held (entering ++ m.frames)
      rw [← hsettled.nesting_eq, openCalls, List.countP_append] at hheld
      rw [openCalls]
      omega
    frames_le := (hsettled.shallow.below entering).length_le }

/-- Behind the sign of `-1` the operand is called for by eight waiting calls, two of which hold a level. -/
theorem wellKept_behind_sign : ∃ frames : List Frame, frames.length = 8 ∧ openCalls frames = 2 ∧
    Steps [⟨.op "-", 0⟩, ⟨.number "1", 1⟩] .start ⟨.call .unary, frames, 1, 2⟩ ∧
    WellKept [⟨.op "-", 0⟩, ⟨.number "1", 1⟩] ⟨.call .unary, frames, 1, 2⟩ := by
  let waiting : List Frame :=
    [.prefixed .neg, .operand .product [] none 0, .operand .sum [.product] none 0,
      .operand .relation [.sum, .product] none 0, .operand .equality [.relation, .sum, .product] none 0,
      .operand .conjunction [.equality, .relation, .sum, .product] none 0,
      .operand .disjunction [.conjunction, .equality, .relation, .sum, .product] none 0, .condition]
  have hsteps : Steps [⟨.op "-", 0⟩, ⟨.number "1", 1⟩] .start ⟨.call .unary, waiting, 1, 2⟩ :=
    .head rfl <| .head rfl <| .head rfl <| .head rfl <| .head rfl <| .head rfl <| .head rfl <| .head rfl <|
      .head rfl <| .head rfl <| .head rfl .refl
  exact ⟨waiting, rfl, rfl, hsteps, wellKept _ _ hsteps⟩

end StampedPrograms.Expr
