import Bytewright.Verification.Cfgscript.Evaluation
import Bytewright.Verification.Cfgscript.Lockstep
import Bytewright.Verification.Cfgscript.Statements

/-! # Appending to a source text -/

namespace Bytewright.Cfgscript

open Bytewright.Common Bytewright.Library

section Appending

variable {suf : Bytes} {p p' q q' : Parser Lexer} {stmts stmts' : List ParsedStatement}

/-! ### At the end of the first text -/

/-- The parser of the longer text is where that of the shorter one is, or in front of `suf`. -/
def Meets (suf : Bytes) (p p' : Parser Lexer) : Prop :=
  Alike suf p p' ∨ (Ended suf p ∧ Beyond suf p')

theorem meets_start (hsuf : OnNewLine suf) {l l' : Lexer} (hl : Extends suf l l')
    (h : Parser.start l = .ok p) (h' : Parser.start l' = .ok p') : Meets suf p p' := by
  rcases nextToken_cases hsuf hl (start_eq_ok h) with ⟨t', l₁', hnext, hp⟩ | ⟨hp, hlast⟩
  · rw [start_eq_ok h'] at hnext
    cases hnext
    exact .inl hp
  · exact .inr ⟨hp, hlast p' (start_eq_ok h')⟩

theorem meets_take (hsuf : OnNewLine suf) {t t' : Token} (hp : Alike suf p p')
    (h : take p = .ok t q) (h' : take p' = .ok t' q') : Meets suf q q' := by
  rcases take_cases hsuf hp h with ⟨t₁, q₁, htake, -, hq⟩ | ⟨hq, hlast⟩
  · rw [h'] at htake
    cases htake
    exact .inl hq
  · exact .inr ⟨hq, (hlast t' q' h').2⟩

theorem meets_statement (hsuf : OnNewLine suf) {st st' : ParsedStatement} (hp : Alike suf p p')
    (h : parseStatement 1 p = .ok st q) (h' : parseStatement 1 p' = .ok st' q') :
    st'.erase = st.erase ∧ Meets suf q q' := by
  have hcompletes := parseStatementIn_completes hsuf (kMaxDepth + 1 - 1)
  rcases hcompletes.step h hp with hq | ⟨st₁, q₁, hrun, hst, hq⟩
  · rcases hcompletes.last hp h h' hq with ⟨hst, hbeyond⟩
    exact ⟨hst, .inr ⟨hq, hbeyond⟩⟩
  · have h' : parseStatementIn (kMaxDepth + 1 - 1) p' = .ok st' q' := h'
    rw [h'] at hrun
    cases hrun
    exact ⟨hst, .inl hq⟩

/-- The statements of the shorter text come first, then those from `suf` on. -/
theorem parseStatements_append (hsuf : OnNewLine suf) (hne : suf ≠ []) {fuel fuel' : Nat}
    (hp : Meets suf p p') (h : parseStatements fuel p = .ok stmts q)
    (h' : parseStatements fuel' p' = .ok stmts' q') :
    ∃ front back n r, stmts' = front ++ back ∧ eraseStatements front = eraseStatements stmts ∧
      Beyond suf r ∧ parseStatements n r = .ok back q' := by
  induction fuel generalizing fuel' p p' stmts stmts' with
  | zero => cases h
  | succ fuel ih =>
      rcases hp with hp | ⟨⟨-, heof, -⟩, hbeyond⟩
      · cases fuel' with
        | zero => cases h'
        | succ fuel' =>
            have hkind := Token.kind_of_erase hp.cur
            have hmore := hp.inside.resolve_left hne
            have hround := parseStatements_cases h'
            rw [hkind] at hround
            rcases parseStatements_cases h with ⟨heof, -⟩ | ⟨hsemi, r, htake, hrest⟩ |
              ⟨-, hsemi, st, rest, r, rfl, hst, hrest⟩
            · exact absurd heof hmore
            · rcases hround with ⟨heof, -⟩ | ⟨-, r', htake', hrest'⟩ | ⟨-, hsemi', -⟩
              · exact absurd heof hmore
              · exact ih (meets_take hsuf hp htake htake') hrest hrest'
              · exact absurd hsemi hsemi'
            · rcases hround with ⟨heof, -⟩ | ⟨hsemi', -⟩ | ⟨-, -, st', rest', r', rfl, hst', hrest'⟩
              · exact absurd heof hmore
              · exact absurd hsemi' hsemi
              · rcases meets_statement hsuf hp hst hst' with ⟨herase, hmeets⟩
                rcases ih hmeets hrest hrest' with ⟨front, back, n, r, rfl, hfront, hr, hback⟩
                exact ⟨st' :: front, back, n, r, rfl, by simp [eraseStatements, herase, hfront], hr,
                  hback⟩
      -- the shorter text is over: all that comes now is read from `suf` on
      · rcases parseStatements_cases h with ⟨-, rfl, -⟩ | ⟨hsemi, -⟩ | ⟨hne, -⟩
        · exact ⟨[], stmts', fuel', p', rfl, rfl, hbeyond, h'⟩
        · rw [heof] at hsemi
          cases hsemi
        · exact absurd heof hne

/-! ### From the new line on -/

/-- A parser in front of a new line reads on as the parser of the lines behind it would. -/
theorem parseSource_of_beyond {b : Bytes} {back : List ParsedStatement} {fuel : Nat}
    (hp : Beyond (ch '\n' :: b) p) (h : parseStatements fuel p = .ok back q) :
    ∃ stmts, parseSource b = .ok stmts ∧ eraseStatements stmts = eraseStatements back := by
  rcases hp with ⟨l, hl, hnext⟩
  have hround : triviaRound l = .ok true (l.forward (ch '\n') b) := by
    simp [triviaRound, bind_run, Lexer.atEnd_cons hl, Lexer.peek_cons hl, advance_run hl, isSpace]
  rw [nextToken_of_round hround] at hnext
  have hnil : OnNewLine [] := by simp [OnNewLine]
  have hb : Extends [] (l.forward (ch '\n') b) { rest := b } := by simp [Extends]
  have hnone : ∀ r : Parser Lexer, ¬ Ended [] r := fun r hr => hr.1 rfl
  rcases nextToken_cases hnil hb hnext with ⟨t', l', hnext', hp'⟩ | ⟨hend, -⟩
  · have hmimics := parseStatements_mimics hnil (Nat.le_refl fuel)
    rcases hmimics.step h hp' with hend | ⟨stmts, q', hrun, herase, -⟩
    · exact absurd hend (hnone q)
    · have hstart : Parser.start ({ rest := b } : Lexer) = .ok ⟨l', t'⟩ := by
        have hnext' : TokenSource.next ({ rest := b } : Lexer) = .ok t' l' := hnext'
        rw [Parser.start, hnext']
      have hdocument : parseDocument ⟨l', t'⟩ = .ok stmts q' := by
        rw [parseDocument, bind_of_ok (get_run _)]
        exact parseStatements_fuel hrun (Parser.left_lt_fuel _)
      exact ⟨stmts, parseSource_ok hstart hdocument, herase⟩
  · exact absurd hend (hnone p)

theorem buildNodes_of_erase {stmts stmts' : List ParsedStatement}
    (h : eraseStatements stmts' = eraseStatements stmts) {env : Environment}
    {out : List Node × Environment} (hbuild : buildNodes env stmts = .ok out) :
    buildNodes env stmts' = .ok out := by
  rw [← buildNodes_erase] at hbuild ⊢
  rwa [h]

/-- What is appended to a text on a new line leaves its nodes as they are, and adds those of its own
statements, which are evaluated in the scopes behind the text. -/
theorem parse_append_line {a b : Bytes} {doc doc' : Document} (h : parse a = .ok doc)
    (h' : parse (a ++ ch '\n' :: b) = .ok doc') :
    ∃ stmts env stmts' nodes env', parseSource a = .ok stmts ∧
      buildNodes [[]] stmts = .ok (doc.nodes, env) ∧ parseSource b = .ok stmts' ∧
      buildNodes env stmts' = .ok (nodes, env') ∧ doc'.nodes = doc.nodes ++ nodes := by
  rcases parse_eq_ok h with ⟨stmts, env, hsource, hnodes⟩
  rcases parse_eq_ok h' with ⟨all, env', hall, hbuild⟩
  rcases parseSource_eq_ok hsource with ⟨p, q, hstart, hrun⟩
  rcases parseSource_eq_ok hall with ⟨p', q', hstart', hrun'⟩
  have hsuf : OnNewLine (ch '\n' :: b) := by simp [OnNewLine]
  have hextends : Extends (ch '\n' :: b) { rest := a } { rest := a ++ ch '\n' :: b } := rfl
  have hmeets := meets_start hsuf hextends hstart hstart'
  rcases parseStatements_append hsuf (List.cons_ne_nil _ _) hmeets hrun hrun' with
    ⟨front, back, n, r, rfl, hfront, hr, hback⟩
  rcases parseSource_of_beyond hr hback with ⟨stmts', hb, herase⟩
  rcases buildNodes_append_ok hbuild with ⟨before, nodes, env₁, hbefore, hafter, hdoc⟩
  rw [buildNodes_of_erase hfront hnodes] at hbefore
  cases hbefore
  exact ⟨stmts, env, stmts', nodes, env', hsource, hnodes, hb, buildNodes_of_erase herase hafter, hdoc⟩

end Appending

/-- A line comment at the end of the first text ends there. -/
theorem parse_append_line_comment :
    ∃ doc doc' stmts env stmts' nodes env', parse (ascii "x = 1; // y = 3;") = .ok doc ∧
      parse (ascii "x = 1; // y = 3;" ++ ch '\n' :: ascii "y = x + 1;") = .ok doc' ∧
      buildNodes [[]] stmts = .ok (doc.nodes, env) ∧ parseSource (ascii "y = x + 1;") = .ok stmts' ∧
      buildNodes env stmts' = .ok (nodes, env') ∧ doc'.nodes = doc.nodes ++ nodes := by
  have hok : (parse (ascii "x = 1; // y = 3;")).isOk = true := by decide +kernel
  have hok' : (parse (ascii "x = 1; // y = 3;" ++ ch '\n' :: ascii "y = x + 1;")).isOk = true := by
    decide +kernel
  cases h : parse (ascii "x = 1; // y = 3;") with
  | error e =>
      rw [h] at hok
      cases hok
  | ok doc =>
      cases h' : parse (ascii "x = 1; // y = 3;" ++ ch '\n' :: ascii "y = x + 1;") with
      | error e =>
          rw [h'] at hok'
          cases hok'
      | ok doc' =>
          rcases parse_append_line h h' with
            ⟨stmts, env, stmts', nodes, env', -, hnodes, hsource, hbuild, hdoc⟩
          exact ⟨doc, doc', stmts, env, stmts', nodes, env', rfl, rfl, hnodes, hsource, hbuild, hdoc⟩

end Bytewright.Cfgscript
