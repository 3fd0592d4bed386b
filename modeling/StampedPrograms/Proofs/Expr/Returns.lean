import StampedPrograms.Proofs.Expr.Machine
import StampedPrograms.Proofs.Expr.Parser

/-!
What the calls of the parser's machine come back with. Every call comes back with what the function that it stands for
returns for the tokens from its position on, with the levels that the counter leaves, and else the machine fails with
the error of the function.
-/

namespace StampedPrograms.Expr

/-- What the function of a call returns with so many levels left. -/
def Routine.result (left : Nat) : Routine → List Token → Parsed
  | .expression, rest => parseExpr left rest
  | .chain levels, rest => parseChain left levels rest
  | .unary, rest => parseUnary left rest
  | .suffixed, rest => parsePostfix left rest
  | .primary, rest => parsePrimary left rest
  | .param, rest => parseParam rest
  | .arguments name, rest => do
      let rest ← expect .leftParen rest
      match next? .rightParen rest with
      | some rest => return (.call name [], rest)
      | none => do
          let (args, rest) ← parseArgs (parseExpr left) rest.length rest
          return (.call name args, rest)

/-- The call on these frames ends as the result says: it comes back behind the given position, with the given number
of levels taken, or the machine fails. -/
def Ends (tokens : List Token) (frames : List Frame) (position nesting : Nat) (m : Machine) : Parsed → Prop
  | .ok (e, rest) => ∃ position', position < position' ∧ position' ≤ tokens.length ∧
      rest = tokens.drop position' ∧ During tokens frames m ⟨.back e, frames, position', nesting⟩
  | .error error => ∃ m', m'.control = .failed error ∧ During tokens frames m m'

variable {tokens rest : List Token} {frames : List Frame} {m m' : Machine}

theorem drop_eq_cons {q : Nat} {token : Token} {after : List Token} (h : tokens.drop q = token :: after) :
    q < tokens.length ∧ after = tokens.drop (q + 1) := by
  have hlt : q < tokens.length := by
    apply Decidable.byContradiction
    intro hge
    rw [List.drop_eq_nil_of_le (Nat.le_of_not_lt hge)] at h
    cases h
  rw [List.drop_eq_getElem_cons hlt] at h
  exact ⟨hlt, (List.cons.inj h).2.symm⟩

section Ends

variable {position nesting q n : Nat} {stack : List Frame} {result : Parsed} {e : Expr}

theorem Ends.step (h : Ends tokens frames position nesting m' result) (hreturned : ¬ m.ReturnedTo frames)
    (hstep : step tokens m = some m') : Ends tokens frames position nesting m result := by
  cases result with
  | ok parsed =>
      obtain ⟨position', hlt, hle, hrest, hduring⟩ := h
      exact ⟨position', hlt, hle, hrest, .head ⟨hreturned, hstep⟩ hduring⟩
  | error error =>
      obtain ⟨last, hfailed, hduring⟩ := h
      exact ⟨last, hfailed, .head ⟨hreturned, hstep⟩ hduring⟩

theorem Ends.behind (h : Ends tokens frames q nesting m result) (hle : position ≤ q) :
    Ends tokens frames position nesting m result := by
  cases result with
  | ok parsed =>
      obtain ⟨position', hlt, hrest⟩ := h
      exact ⟨position', Nat.lt_of_le_of_lt hle hlt, hrest⟩
  | error error => exact h

theorem Ends.call {routine : Routine}
    (h : Ends tokens frames position nesting
      ((Machine.mk (.call routine) stack q n).run (tokens.drop q) routine) result) :
    Ends tokens frames position nesting ⟨.call routine, stack, q, n⟩ result :=
  h.step (by rintro ⟨-, e, ⟨⟩⟩) rfl

theorem Ends.entered {frame : Frame} {routine : Routine} (hn : n ≤ maxNesting)
    (h : Ends tokens frames position nesting ⟨.call routine, frame :: stack, q, n⟩ result) :
    Ends tokens frames position nesting ⟨.entered frame routine, stack, q, n⟩ result :=
  h.step (by rintro ⟨-, e, ⟨⟩⟩) (if_neg (Nat.not_lt_of_le hn))

theorem Ends.resumed {frame : Frame}
    (h : Ends tokens frames position nesting
      ((Machine.mk (.back e) (frame :: frames) q n).resume (tokens.drop q) e frame) result) :
    Ends tokens frames position nesting ⟨.back e, frame :: frames, q, n⟩ result :=
  h.step (fun hreturned => List.cons_ne_self _ _ hreturned.1) rfl

theorem ends_back (hlt : position < q) (hle : q ≤ tokens.length) :
    Ends tokens frames position nesting ⟨.back e, frames, q, nesting⟩ (.ok (e, tokens.drop q)) :=
  ⟨q, hlt, hle, rfl, .refl⟩

theorem ends_failed {error : Error} (h : m.control = .failed error) :
    Ends tokens frames position nesting m (.error error) :=
  ⟨m, h, .refl⟩

/-- A level is taken that is not there. -/
theorem ends_tooNested {frame : Frame} {routine : Routine} :
    Ends tokens frames position nesting ⟨.entered frame routine, stack, q, maxNesting + 1⟩
      (.error (tooNested (tokens.drop q))) := by
  have hstep : step tokens ⟨.entered frame routine, stack, q, maxNesting + 1⟩ =
      some ⟨.failed (tooNested (tokens.drop q)), stack, q, maxNesting + 1⟩ := by
    rw [step]
    exact if_pos (Nat.lt_succ_self maxNesting)
  exact (ends_failed rfl).step (by rintro ⟨-, e, ⟨⟩⟩) hstep

theorem ends_leave {levels : Nat} (hn : n = nesting + levels) (hlt : position < q) (hle : q ≤ tokens.length)
    (control : Control) :
    Ends tokens frames position nesting ((Machine.mk control frames q n).leave levels e)
      (.ok (e, tokens.drop q)) := by
  subst hn
  rw [Machine.leave, if_pos (Nat.le_add_left ..)]
  dsimp only
  rw [Nat.add_sub_cancel]
  exact ends_back hlt hle

/-- A call that waits for another one goes on when that one comes back, and fails with it. -/
theorem Ends.bind {frame : Frame} {inner : Nat} {x : Parsed} {f : Expr × List Token → Parsed}
    (hx : Ends tokens (frame :: frames) q inner m x) (hframes : m.frames = frame :: frames)
    (hf : ∀ e q', q < q' → q' ≤ tokens.length →
      Ends tokens frames position nesting ⟨.back e, frame :: frames, q', inner⟩ (f (e, tokens.drop q'))) :
    Ends tokens frames position nesting m (x >>= f) := by
  have hsuffix : frame :: frames <:+ m.frames := hframes ▸ List.suffix_rfl
  cases x with
  | error error =>
      obtain ⟨last, hfailed, hduring⟩ := hx
      exact ⟨last, hfailed, hduring.outer hsuffix⟩
  | ok parsed =>
      obtain ⟨e, rest⟩ := parsed
      obtain ⟨q', hlt, hle, rfl, hduring⟩ := hx
      have hgoes := hf e q' hlt hle
      rw [ok_bind]
      generalize f (e, tokens.drop q') = result at hgoes
      cases result with
      | error error =>
          obtain ⟨last, hfailed, hafter⟩ := hgoes
          exact ⟨last, hfailed, (hduring.outer hsuffix).trans hafter⟩
      | ok parsed =>
          obtain ⟨position', hlt', hle', hrest', hafter⟩ := hgoes
          exact ⟨position', hlt', hle', hrest', (hduring.outer hsuffix).trans hafter⟩

theorem ends_expecting {kind : Token.Kind} {goOn : Machine → Machine} {f : List Token → Parsed}
    (h : m.position < tokens.length →
      Ends tokens frames position nesting (goOn m.advance) (f (tokens.drop (m.position + 1)))) :
    Ends tokens frames position nesting (m.expecting kind (tokens.drop m.position) goOn)
      (expect kind (tokens.drop m.position) >>= f) := by
  generalize hrest : tokens.drop m.position = rest
  cases rest with
  | nil => exact ends_failed rfl
  | cons token after =>
      obtain ⟨hlt, rfl⟩ := drop_eq_cons hrest
      rw [Machine.expecting, expect]
      by_cases hkind : token.kind = kind
      · rw [if_pos hkind, if_pos hkind]
        exact h hlt
      · rw [if_neg hkind, if_neg hkind]
        exact ends_failed rfl

theorem next?_drop {kind : Token.Kind} {after : List Token} (h : next? kind (tokens.drop q) = some after) :
    q < tokens.length ∧ after = tokens.drop (q + 1) := by
  obtain ⟨i, htokens⟩ := next?_eq_some.mp h
  exact drop_eq_cons htokens

theorem link?_drop {level : Level} {op : BinaryOp} {after : List Token}
    (h : level.link? (tokens.drop q) = some (op, after)) : q < tokens.length ∧ after = tokens.drop (q + 1) := by
  obtain ⟨symbol, i, -, htokens⟩ := link?_eq_some h
  exact drop_eq_cons htokens

theorem prefixOp?_drop {op : UnaryOp} {after : List Token} (h : prefixOp? (tokens.drop q) = some (op, after)) :
    q < tokens.length ∧ after = tokens.drop (q + 1) := by
  obtain ⟨i, htokens⟩ := prefixOp?_eq_some h
  exact drop_eq_cons htokens

theorem ends_param :
    Ends tokens frames q n ⟨.call .param, frames, q, n⟩ (parseParam (tokens.drop q)) := by
  refine .call ?_
  rw [Machine.run, parseParam]
  refine ends_expecting (m := ⟨.call .param, frames, q, n⟩) fun hlt => ?_
  rw [List.tail_drop]
  generalize hrest : tokens.drop (q + 1) = rest
  cases rest with
  | nil => exact ends_failed rfl
  | cons token after =>
      obtain ⟨hlt, rfl⟩ := drop_eq_cons hrest
      obtain ⟨kind, i⟩ := token
      cases kind with
      | ident name => exact ends_back (q := q + 1 + 1) (by omega) hlt
      | _ => exact ends_failed rfl

theorem ends_arguments_list {left : Nat} {name : String}
    (hparse : ∀ (frames : List Frame) (q : Nat),
      Ends tokens frames q n ⟨.call .expression, frames, q, n⟩ (parseExpr left (tokens.drop q)))
    (count : Nat) (hcount : tokens.length ≤ q + count) (hlt : position < q) (before : List Expr) :
    Ends tokens frames position n ⟨.call .expression, .argument name before :: frames, q, n⟩
      (parseArgs (parseExpr left) count (tokens.drop q) >>= fun parsed =>
        .ok (.call name (before ++ parsed.1), parsed.2)) := by
  induction count generalizing q before with
  | zero =>
      rw [parseArgs, bind_assoc]
      have hnil : tokens.drop q = [] := List.drop_eq_nil_of_le hcount
      rw [← hnil]
      refine (hparse _ q).bind rfl fun e q' hlt' hle' => ?_
      omega
  | succ count ih =>
      rw [parseArgs, bind_assoc]
      refine (hparse _ q).bind rfl fun e q' hlt' hle' => ?_
      refine .resumed ?_
      rw [Machine.resume]
      dsimp only
      cases hcomma : next? .comma (tokens.drop q') with
      | some after =>
          obtain ⟨hmore, rfl⟩ := next?_drop hcomma
          dsimp only
          rw [bind_assoc]
          have hothers := ih (q := q' + 1) (by omega) (by omega) (before ++ [e])
          simpa [Machine.push, Machine.pop, Machine.advance] using hothers
      | none =>
          dsimp only
          rw [bind_assoc]
          refine ends_expecting (m := ⟨.back e, .argument name before :: frames, q', n⟩) fun hmore => ?_
          exact ends_back (q := q' + 1) (by omega) hmore

theorem ends_arguments {left : Nat} (name : String) (frames : List Frame) (q : Nat)
    (hparse : ∀ (frames : List Frame) (q : Nat),
      Ends tokens frames q n ⟨.call .expression, frames, q, n⟩ (parseExpr left (tokens.drop q))) :
    Ends tokens frames q n ⟨.call (.arguments name), frames, q, n⟩
      ((Routine.arguments name).result left (tokens.drop q)) := by
  refine .call ?_
  rw [Machine.run, Routine.result]
  refine ends_expecting (m := ⟨.call (.arguments name), frames, q, n⟩) fun (hopen : q < tokens.length) => ?_
  rw [List.tail_drop]
  cases hclose : next? .rightParen (tokens.drop (q + 1)) with
  | some after =>
      obtain ⟨hmore, rfl⟩ := next?_drop hclose
      exact ends_back (q := q + 1 + 1) (by omega) hmore
  | none =>
      have hcount : tokens.length ≤ q + 1 + (tokens.drop (q + 1)).length := by
        rw [List.length_drop]
        omega
      exact ends_arguments_list hparse _ hcount (Nat.lt_succ_self q) []

theorem ends_name {token : Token} {name : String} (control : Control) (hlt : position < q)
    (hle : q ≤ tokens.length) :
    Ends tokens frames position n ((Machine.mk control frames q n).name token name)
      (parseName token name (tokens.drop q)) := by
  rw [Machine.name, parseName]
  split
  · exact ends_back hlt hle
  split
  · exact ends_back hlt hle
  split
  · exact ends_back hlt hle
  split
  · exact ends_back hlt hle
  split
  · exact ends_param.behind (Nat.le_of_lt hlt)
  · exact ends_failed rfl

end Ends

mutual

theorem ends_expression {left n : Nat} (hleft : n + left = maxNesting) (frames : List Frame) (q : Nat) :
    Ends tokens frames q n ⟨.call .expression, frames, q, n⟩ (parseExpr left (tokens.drop q)) := by
  refine .call ?_
  match left with
  | 0 =>
      obtain rfl : n = maxNesting := hleft
      rw [parseExpr]
      exact ends_tooNested
  | left + 1 =>
      have hinner : n + 1 + left = maxNesting := by omega
      refine .entered (Nat.le.intro hinner) ?_
      rw [parseExpr]
      refine (ends_chain hinner Level.all (.condition :: frames) q).bind rfl fun cond q₁ hlt₁ hle₁ => .resumed ?_
      rw [Machine.resume]
      dsimp only
      cases hquestion : next? .question (tokens.drop q₁) with
      | none => exact ends_leave rfl hlt₁ hle₁ _
      | some after =>
          obtain ⟨hmore₁, rfl⟩ := next?_drop hquestion
          have hyes := ends_expression hinner (.outcome cond :: frames) (q₁ + 1)
          refine hyes.bind rfl fun yes q₂ hlt₂ hle₂ => .resumed ?_
          rw [Machine.resume]
          refine ends_expecting (m := ⟨.back yes, .outcome cond :: frames, q₂, n + 1⟩)
            fun (hmore₂ : q₂ < tokens.length) => ?_
          have hno := ends_expression hinner (.alternative cond yes :: frames) (q₂ + 1)
          refine hno.bind rfl fun no q₃ hlt₃ hle₃ => .resumed ?_
          have hlt : q < q₃ := by omega
          exact ends_leave rfl hlt hle₃ _
termination_by 20 * left
decreasing_by all_goals simp <;> omega

theorem ends_chain {left n : Nat} (hleft : n + left = maxNesting) (levels : List Level) (frames : List Frame)
    (q : Nat) :
    Ends tokens frames q n ⟨.call (.chain levels), frames, q, n⟩ (parseChain left levels (tokens.drop q)) := by
  refine .call ?_
  match levels with
  | [] =>
      rw [parseChain]
      exact ends_prefixes hleft frames q
  | level :: levels =>
      rw [parseChain]
      refine (ends_chain hleft levels _ q).bind rfl fun e q₁ hlt₁ hle₁ => ?_
      exact ends_links none 0 hleft hlt₁ hle₁
termination_by 20 * left + 2 * levels.length + 5
decreasing_by all_goals simp <;> omega

/-- The chain goes on after an operand, with a level taken for each of its links. -/
theorem ends_links {left n position q : Nat} {frames : List Frame} {level : Level} {levels : List Level} {e : Expr}
    (before : Option (BinaryOp × Expr)) (links : Nat) (hleft : n + links + left = maxNesting)
    (hlt : position < q) (hle : q ≤ tokens.length) :
    Ends tokens frames position n ⟨.back e, .operand level levels before links :: frames, q, n + links⟩
      (parseLinks left level levels (linked before e) (tokens.drop q)) := by
  refine .resumed ?_
  rw [Machine.resume, parseLinks]
  cases hlink : level.link? (tokens.drop q) with
  | none => exact ends_leave rfl hlt hle _
  | some found =>
      obtain ⟨op, after⟩ := found
      obtain ⟨hmore, rfl⟩ := link?_drop hlink
      match left with
      | 0 =>
          have hn : n + links = maxNesting := hleft
          rw [hn]
          exact ends_tooNested
      | left + 1 =>
          have hinner : n + links + 1 + left = maxNesting := by omega
          refine .entered (Nat.le.intro hinner) ?_
          refine (ends_chain hinner levels _ (q + 1)).bind rfl fun second q₁ hlt₁ hle₁ => ?_
          exact ends_links (some (op, linked before e)) (links + 1) (by omega) (by omega) hle₁
termination_by 20 * left + 2 * levels.length + 6
decreasing_by all_goals omega

theorem ends_prefixes {left n : Nat} (hleft : n + left = maxNesting) (frames : List Frame) (q : Nat) :
    Ends tokens frames q n ⟨.call .unary, frames, q, n⟩ (parseUnary left (tokens.drop q)) := by
  refine .call ?_
  rw [Machine.run, parseUnary]
  cases hprefix : prefixOp? (tokens.drop q) with
  | none => exact ends_suffixed hleft frames q
  | some found =>
      obtain ⟨op, after⟩ := found
      obtain ⟨hmore, rfl⟩ := prefixOp?_drop hprefix
      match left with
      | 0 =>
          obtain rfl : n = maxNesting := hleft
          exact ends_tooNested
      | left + 1 =>
          have hinner : n + 1 + left = maxNesting := by omega
          refine .entered (Nat.le.intro hinner) ?_
          refine (ends_prefixes hinner (.prefixed op :: frames) (q + 1)).bind rfl fun e q₁ hlt₁ hle₁ => .resumed ?_
          have hlt : q < q₁ := by omega
          exact ends_leave rfl hlt hle₁ _
termination_by 20 * left + 4
decreasing_by all_goals simp

theorem ends_suffixed {left n : Nat} (hleft : n + left = maxNesting) (frames : List Frame) (q : Nat) :
    Ends tokens frames q n ⟨.call .suffixed, frames, q, n⟩ (parsePostfix left (tokens.drop q)) := by
  refine .call ?_
  rw [parsePostfix]
  refine (ends_primary hleft (.first :: frames) q).bind rfl fun e q₁ hlt₁ hle₁ => .resumed ?_
  rw [Machine.resume]
  dsimp only
  cases hcoalesce : next? (.op "??") (tokens.drop q₁) with
  | none => exact ends_back hlt₁ hle₁
  | some after =>
      obtain ⟨hmore, rfl⟩ := next?_drop hcoalesce
      refine (ends_primary hleft (.second e :: frames) (q₁ + 1)).bind rfl fun second q₂ hlt₂ hle₂ => .resumed ?_
      have hlt : q < q₂ := by omega
      exact ends_back hlt hle₂
termination_by 20 * left + 3

theorem ends_primary {left n : Nat} (hleft : n + left = maxNesting) (frames : List Frame) (q : Nat) :
    Ends tokens frames q n ⟨.call .primary, frames, q, n⟩ (parsePrimary left (tokens.drop q)) := by
  refine .call ?_
  rw [Machine.run]
  match hrest : tokens.drop q with
  | [] =>
      rw [parsePrimary]
      exact ends_failed rfl
  | ⟨kind, i⟩ :: after =>
      obtain ⟨hmore, rfl⟩ := drop_eq_cons hrest
      rw [parsePrimary, Machine.primary]
      cases kind with
      | leftParen =>
          refine (ends_expression hleft (.group :: frames) (q + 1)).bind rfl fun e q₁ hlt₁ hle₁ => .resumed ?_
          rw [Machine.resume]
          refine ends_expecting (m := ⟨.back e, .group :: frames, q₁, n⟩) fun (hclose : q₁ < tokens.length) => ?_
          exact ends_back (q := q₁ + 1) (by omega) hclose
      | number text => exact ends_back (Nat.lt_succ_self q) hmore
      | string text => exact ends_back (Nat.lt_succ_self q) hmore
      | call name =>
          have harguments := ends_arguments name frames (q + 1) (ends_expression hleft)
          exact harguments.behind (Nat.le_succ q)
      | ident name => exact ends_name _ (Nat.lt_succ_self q) hmore
      | _ => exact ends_failed rfl
termination_by 20 * left + 2

end

/-- Every call ends as the function it stands for does, with the levels that are left. -/
theorem ends_call {left n : Nat} (hleft : n + left = maxNesting) (routine : Routine) (frames : List Frame) (q : Nat) :
    Ends tokens frames q n ⟨.call routine, frames, q, n⟩ (routine.result left (tokens.drop q)) := by
  cases routine with
  | expression => exact ends_expression hleft frames q
  | chain levels => exact ends_chain hleft levels frames q
  | unary => exact ends_prefixes hleft frames q
  | suffixed => exact ends_suffixed hleft frames q
  | primary => exact ends_primary hleft frames q
  | param => exact ends_param
  | arguments name => exact ends_arguments name frames q (ends_expression hleft)

end StampedPrograms.Expr
