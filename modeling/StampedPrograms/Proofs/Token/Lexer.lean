import StampedPrograms.Token.Lexer
import StampedPrograms.Proofs.Error

/-!
What stands in the tokens of a source: names are names and numbers are written with digits and points,
whatever the source.
-/

namespace StampedPrograms.Token

/-- A letter or an underscore, and then letters, digits and underscores. -/
def IsName (cs : List Char) : Prop :=
  ∃ c rest, cs = c :: rest ∧ isNameStart c = true ∧ ∀ d ∈ rest, isNamePart d = true

theorem IsName.isNamePart {cs : List Char} (h : IsName cs) : ∀ c ∈ cs, isNamePart c = true := by
  obtain ⟨c, rest, rfl, hstart, hrest⟩ := h
  intro d hd
  rcases List.mem_cons.mp hd with rfl | hd
  · exact isNamePart_of_isNameStart hstart
  · exact hrest d hd

def isNumberPart (c : Char) : Bool :=
  c.isDigit || c == '.'

/-- Names and numbers are spelled as such; strings may hold anything. -/
def Kind.Lexical : Kind → Prop
  | .ident name => IsName name.toList
  | .call name => IsName name.toList
  | .number text => ∀ c ∈ text.toList, isNumberPart c = true
  | _ => True

theorem isName_takeWhile {c : Char} {rest : List Char} (h : isNameStart c = true) :
    IsName ((c :: rest).takeWhile isNamePart) := by
  rw [List.takeWhile_cons_of_pos (isNamePart_of_isNameStart h)]
  exact ⟨c, _, rfl, h, fun d hd => List.all_eq_true.mp List.all_takeWhile d hd⟩

theorem lexical_cutNumber (cs : List Char) : (cutNumber cs).kind.Lexical := by
  have hdigits (cs : List Char) : ∀ c ∈ cs.takeWhile Char.isDigit, isNumberPart c = true := by
    intro c hc
    have hdigit : c.isDigit = true := List.all_eq_true.mp List.all_takeWhile c hc
    rw [isNumberPart, hdigit, Bool.true_or]
  unfold cutNumber
  split
  · next d more h =>
      split
      · intro c hc
        rw [String.toList_ofList, List.mem_append, List.mem_cons] at hc
        rcases hc with hc | rfl | hc
        · exact hdigits _ c hc
        · rfl
        · exact hdigits _ c hc
      · intro c hc
        rw [String.toList_ofList] at hc
        exact hdigits _ c hc
  · intro c hc
    rw [String.toList_ofList] at hc
    exact hdigits _ c hc

theorem lexical_cutString {offset : Nat} {quote : Char} {cs : List Char} {t : Cut}
    (h : cutString offset quote cs = .ok t) : t.kind.Lexical := by
  unfold cutString at h
  split at h
  · cases h
    trivial
  · cases h
  · cases h

theorem lexical_cutCall {offset : Nat} {cs : List Char} {t : Cut} (h : cutCall offset cs = .ok t) :
    t.kind.Lexical := by
  unfold cutCall at h
  split at h
  · next hstart =>
      cases h
      cases cs with
      | nil => cases hstart
      | cons c rest =>
          show IsName (String.ofList _).toList
          rw [String.toList_ofList]
          exact isName_takeWhile hstart
  · cases h

theorem lexical_cutOperator {offset : Nat} {c : Char} {rest : List Char} {t : Cut}
    (h : cutOperator offset c rest = .ok t) : t.kind.Lexical := by
  unfold cutOperator at h
  dsimp only at h
  split at h
  · cases h
    trivial
  split at h
  · cases h
    trivial
  split at h
  · cases h
    trivial
  · cases h

theorem lexical_cut {offset : Nat} {c : Char} {rest : List Char} {t : Cut}
    (h : cut offset c rest = .ok t) : t.kind.Lexical := by
  cases cuts_of_cut h with
  | leftParen | rightParen | comma | colon | dot => trivial
  | string _ h => exact lexical_cutString h
  | call h => exact lexical_cutCall h
  | fraction | number => exact lexical_cutNumber _
  | name start =>
      show IsName (String.ofList _).toList
      rw [String.toList_ofList]
      exact isName_takeWhile start
  | operator h => exact lexical_cutOperator h

theorem lexical_of_mem_tokensFrom {offset : Nat} {cs : List Char} {tokens : List Token}
    (h : tokensFrom offset cs = .ok tokens) : ∀ token ∈ tokens, token.kind.Lexical := by
  fun_induction tokensFrom offset cs generalizing tokens with
  | case1 => cases h; simp
  | case2 => cases h
  | case3 offset cs c rest htext start t htaken =>
      rename_i ih
      rw [bind_eq_ok] at h
      obtain ⟨others, hothers, h⟩ := h
      cases h
      intro token htoken
      rcases List.mem_cons.mp htoken with rfl | htoken
      · exact lexical_cut htaken
      · exact ih hothers token htoken

end StampedPrograms.Token
