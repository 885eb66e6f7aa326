import Bytewright.Verification.Cfgscript.Accepted
import Bytewright.Verification.Cfgscript.Expressions
import Bytewright.Verification.Cfgscript.Lockstep
import Bytewright.Verification.Cfgscript.Statements

/-! # The document grammar

The rules for statements in `parser.hpp`, over the expression grammar, and what `parse_document` makes
of a source. -/

namespace Bytewright.Cfgscript

open Bytewright.Common

/-! ### Statements -/

/-- The components of a dotted path behind its first. -/
inductive Dotted : List Bytes → List Token → Prop where
  | nil : Dotted [] []
  | cons {path : List Bytes} {ts : List Token} {dot part : Token} (hdot : dot.kind = .kDot)
      (hpart : part.kind = .kIdent) (h : Dotted path ts) : Dotted (part.text :: path) (dot :: part :: ts)

/-- What the rules for statements derive. -/
inductive Passage where
  | statement (st : ParsedStatement)
  | statements (stmts : List ParsedStatement)

/-- The token sequences of a passage in which blocks are nested at most `room` deep, the statements in
the innermost counted. -/
inductive Declares : (room : Nat) → Passage → List Token → Prop where
  | «include» {room : Nat} {keyword path semi : Token} (hkeyword : keyword.kind = .kInclude)
      (hpath : path.kind = .kString) (hsemi : semi.kind = .kSemicolon) :
      Declares (room + 1) (.statement (.include keyword.offset path.text)) [keyword, path, semi]
  | block {room : Nat} {children : List ParsedStatement} {ts : List Token} {name l r : Token}
      (hname : name.kind = .kIdent) (hl : l.kind = .kLBrace) (h : Declares room (.statements children) ts)
      (hr : r.kind = .kRBrace) :
      Declares (room + 1) (.statement (.block name.offset name.text none children)) (name :: l :: (ts ++ [r]))
  | labelled {room : Nat} {children : List ParsedStatement} {ts : List Token} {name label l r : Token}
      (hname : name.kind = .kIdent) (hlabel : label.kind = .kString) (hl : l.kind = .kLBrace)
      (h : Declares room (.statements children) ts) (hr : r.kind = .kRBrace) :
      Declares (room + 1) (.statement (.block name.offset name.text (some label.text) children))
        (name :: label :: l :: (ts ++ [r]))
  | assignment {room : Nat} {path : List Bytes} {e : Expr} {ts us : List Token} {first assign semi : Token}
      (hfirst : first.kind = .kIdent) (hpath : Dotted path ts) (hassign : assign.kind = .kAssign)
      (h : Derives (.expr e) us) (hsemi : semi.kind = .kSemicolon) :
      Declares (room + 1) (.statement (.assignment first.offset (first.text :: path) e))
        (first :: (ts ++ assign :: (us ++ [semi])))
  | nil {room : Nat} : Declares room (.statements []) []
  -- a bare semicolon is an empty statement
  | stray {room : Nat} {stmts : List ParsedStatement} {ts : List Token} {semi : Token}
      (hsemi : semi.kind = .kSemicolon) (h : Declares room (.statements stmts) ts) :
      Declares room (.statements stmts) (semi :: ts)
  | cons {room : Nat} {st : ParsedStatement} {stmts : List ParsedStatement} {ts us : List Token}
      (h : Declares room (.statement st) ts) (hs : Declares room (.statements stmts) us) :
      Declares room (.statements (st :: stmts)) (ts ++ us)

theorem Dotted.not_eof {path : List Bytes} {ts : List Token} (h : Dotted path ts) :
    ∀ t ∈ ts, t.kind ≠ .kEof := by
  induction h with
  | nil => exact fun _ ht => absurd ht List.not_mem_nil
  | cons hdot hpart _ ih =>
      refine List.forall_mem_cons.mpr ⟨by rw [hdot]; decide, ?_⟩
      exact List.forall_mem_cons.mpr ⟨by rw [hpart]; decide, ih⟩

/-- A token of a statement is never the end of the input. -/
theorem Declares.not_eof {room : Nat} {φ : Passage} {ts : List Token} (h : Declares room φ ts) :
    ∀ t ∈ ts, t.kind ≠ .kEof := by
  induction h with
  | «include» hkeyword hpath hsemi => simp [hkeyword, hpath, hsemi]
  | block hname hl _ hr ih =>
      intro t ht
      simp only [List.mem_cons, List.mem_append, List.not_mem_nil, or_false] at ht
      rcases ht with rfl | rfl | ht | rfl
      · rw [hname]; decide
      · rw [hl]; decide
      · exact ih t ht
      · rw [hr]; decide
  | labelled hname hlabel hl _ hr ih =>
      intro t ht
      simp only [List.mem_cons, List.mem_append, List.not_mem_nil, or_false] at ht
      rcases ht with rfl | rfl | rfl | ht | rfl
      · rw [hname]; decide
      · rw [hlabel]; decide
      · rw [hl]; decide
      · exact ih t ht
      · rw [hr]; decide
  | assignment hfirst hpath hassign h hsemi =>
      intro t ht
      simp only [List.mem_cons, List.mem_append, List.not_mem_nil, or_false] at ht
      rcases ht with rfl | ht | rfl | ht | rfl
      · rw [hfirst]; decide
      · exact hpath.not_eof t ht
      · rw [hassign]; decide
      · exact h.not_eof t ht
      · rw [hsemi]; decide
  | nil => exact fun _ ht => absurd ht List.not_mem_nil
  | stray hsemi _ ih => exact List.forall_mem_cons.mpr ⟨by rw [hsemi]; decide, ih⟩
  | cons _ _ ih ihs => exact fun t ht => (List.mem_append.mp ht).elim (ih t) (ihs t)

/-- What a statement can begin with. -/
def Opens (kind : TokenKind) : Prop := kind = .kInclude ∨ kind = .kIdent

theorem Declares.opens {room : Nat} {st : ParsedStatement} {ts : List Token}
    (h : Declares room (.statement st) ts) : ∃ t us, ts = t :: us ∧ Opens t.kind := by
  cases h with
  | «include» hkeyword => exact ⟨_, _, rfl, .inl hkeyword⟩
  | block hname | labelled hname | assignment hname => exact ⟨_, _, rfl, .inr hname⟩

variable {σ : Type} [TokenSource σ]

/-! ### The two loops over statements

`parse_block` and `parse_document` go through their statements alike, up to a closing token. -/

/-- A loop over what `nested` parses. -/
structure StatementLoop (close : TokenKind) (nested : Parse σ ParsedStatement)
    (loop : Nat → Parse σ (List ParsedStatement)) : Prop where
  spent {p q : Parser σ} {stmts : List ParsedStatement} : loop 0 p ≠ .ok stmts q
  round {fuel : Nat} {p q : Parser σ} {stmts : List ParsedStatement} (h : loop (fuel + 1) p = .ok stmts q) :
    (p.cur.kind = close ∧ stmts = [] ∧ q = p) ∨
    (p.cur.kind = .kSemicolon ∧ ∃ r, take p = .ok p.cur r ∧ loop fuel r = .ok stmts q) ∨
    (∃ st rest r, stmts = st :: rest ∧ nested p = .ok st r ∧ loop fuel r = .ok rest q)
  close {fuel : Nat} {p : Parser σ} (h : p.cur.kind = close) : loop (fuel + 1) p = .ok [] p
  stray {fuel : Nat} {p q : Parser σ} (h : p.cur.kind = .kSemicolon) (htake : take p = .ok p.cur q) :
    loop (fuel + 1) p = loop fuel q
  statement {fuel : Nat} {p : Parser σ} (h : Opens p.cur.kind) :
    loop (fuel + 1) p = (do
      let st ← nested
      let rest ← loop fuel
      return st :: rest) p

theorem Opens.apart {kind : TokenKind} (h : Opens kind) :
    kind ≠ .kRBrace ∧ kind ≠ .kEof ∧ kind ≠ .kSemicolon := by
  rcases h with rfl | rfl <;> decide

/-- A statement that is there: the loop of a block goes past its two tests. -/
theorem parseChildren_of_open {nested : Parse σ ParsedStatement} {offset fuel : Nat} {p : Parser σ}
    (hclose : p.cur.kind ≠ .kRBrace) (heof : p.cur.kind ≠ .kEof) :
    parseChildren nested offset (fuel + 1) p = (do
      if ← accept .kSemicolon then parseChildren nested offset fuel
      else return (← nested) :: (← parseChildren nested offset fuel) : Parse σ _) p := by
  rw [parseChildren, bind_of_ok (check_run _ p), ite_run, if_neg (by simpa using hclose),
    bind_of_ok (check_run _ p), ite_run, if_neg (by simpa using heof)]

theorem parseChildren_loop (nested : Parse σ ParsedStatement) (offset : Nat) :
    StatementLoop .kRBrace nested (parseChildren nested offset) where
  spent h := by cases h
  round {fuel p q stmts} h := by
    by_cases hclose : p.cur.kind = .kRBrace
    · rw [parseChildren, bind_of_ok (check_run _ p), ite_run, if_pos (decide_eq_true hclose)] at h
      cases h
      exact .inl ⟨hclose, rfl, rfl⟩
    · by_cases heof : p.cur.kind = .kEof
      · rw [parseChildren, bind_of_ok (check_run _ p), ite_run, if_neg (by simpa using hclose),
          bind_of_ok (check_run _ p), ite_run, if_pos (decide_eq_true heof)] at h
        cases h
      · rw [parseChildren_of_open hclose heof] at h
        rcases bind_eq_ok.mp h with ⟨semi, p₁, hsemi, hround⟩
        rw [ite_run] at hround
        rcases accept_eq_ok hsemi with ⟨rfl, hcur, htake⟩ | ⟨rfl, -, rfl⟩
        · exact .inr (.inl ⟨hcur, p₁, htake, hround⟩)
        · rw [if_neg Bool.false_ne_true] at hround
          rcases bind_eq_ok.mp hround with ⟨st, p₂, hst, hround⟩
          rcases bind_eq_ok.mp hround with ⟨rest, p₃, hrest, hround⟩
          cases hround
          exact .inr (.inr ⟨st, rest, p₂, rfl, hst, hrest⟩)
  close {fuel p} h := by
    rw [parseChildren, bind_of_ok (check_run _ p), ite_run, if_pos (decide_eq_true h)]
    rfl
  stray {fuel p q} h htake := by
    rw [parseChildren_of_open (by rw [h]; decide) (by rw [h]; decide), bind_of_ok (accept_of_eq h htake),
      if_pos rfl]
  statement {fuel p} h := by
    rcases h.apart with ⟨hclose, heof, hsemi⟩
    rw [parseChildren_of_open hclose heof, bind_of_ok (accept_of_ne hsemi), if_neg Bool.false_ne_true]

theorem parseStatements_loop : StatementLoop (σ := σ) .kEof (parseStatement 1) parseStatements where
  spent h := by cases h
  round h := by
    rcases parseStatements_cases h with hclose | hstray | ⟨-, -, hstatement⟩
    · exact .inl hclose
    · exact .inr (.inl hstray)
    · exact .inr (.inr hstatement)
  close {fuel p} h := by
    rw [parseStatements, bind_of_ok (check_run _ p), ite_run, if_pos (decide_eq_true h)]
    rfl
  stray {fuel p q} h htake := by
    rw [parseStatements, bind_of_ok (check_run _ p), ite_run, if_neg (by rw [h]; decide),
      bind_of_ok (accept_of_eq h htake), if_pos rfl]
  statement {fuel p} h := by
    rcases h.apart with ⟨-, heof, hsemi⟩
    rw [parseStatements, bind_of_ok (check_run _ p), ite_run, if_neg (by simpa using heof),
      bind_of_ok (accept_of_ne hsemi), if_neg Bool.false_ne_true]

variable {p q : Parser σ} {room : Nat}

/-! ### What the parser takes is a statement -/

/-- Whatever a parser of statements returns, it took the tokens of that. -/
def Yields {α : Type} (room : Nat) (m : Parse σ α) (passage : α → Passage) : Prop :=
  ∀ {p a q}, m p = .ok a q → ∃ ts, Takes p ts q ∧ Declares room (passage a) ts

theorem StatementLoop.sound {close : TokenKind} {nested : Parse σ ParsedStatement}
    {loop : Nat → Parse σ (List ParsedStatement)} (hloop : StatementLoop close nested loop)
    (hnested : Yields room nested .statement) {fuel : Nat} {stmts : List ParsedStatement}
    (h : loop fuel p = .ok stmts q) :
    ∃ ts, Takes p ts q ∧ Declares room (.statements stmts) ts ∧ q.cur.kind = close := by
  induction fuel generalizing p stmts with
  | zero => exact absurd h hloop.spent
  | succ fuel ih =>
      rcases hloop.round h with ⟨hclose, rfl, rfl⟩ | ⟨hsemi, r, htake, hrest⟩ | ⟨st, rest, r, rfl, hst, hrest⟩
      · exact ⟨[], .nil q, .nil, hclose⟩
      · rcases ih hrest with ⟨ts, hts, hder, hend⟩
        exact ⟨_, .cons htake hts, .stray hsemi hder, hend⟩
      · rcases hnested hst with ⟨ts, hts, hder⟩
        rcases ih hrest with ⟨us, hus, hders, hend⟩
        exact ⟨_, hts.append hus, .cons hder hders, hend⟩

theorem parsePath_sound {fuel : Nat} {path : List Bytes} (h : parsePath fuel p = .ok path q) :
    ∃ ts, Takes p ts q ∧ Dotted path ts := by
  induction fuel generalizing p path with
  | zero => cases h
  | succ fuel ih =>
      rw [parsePath] at h
      rcases bind_eq_ok.mp h with ⟨dot, p₁, hdot, hround⟩
      rw [ite_run] at hround
      rcases accept_eq_ok hdot with ⟨rfl, hkind, htake⟩ | ⟨rfl, -, rfl⟩
      · rw [if_pos rfl] at hround
        rcases bind_eq_ok.mp hround with ⟨part, p₂, hpart, hround⟩
        rcases bind_eq_ok.mp hround with ⟨path', p₃, hpath, hround⟩
        cases hround
        rcases expect_eq_ok hpart with ⟨hpartKind, rfl, htakePart⟩
        rcases ih hpath with ⟨ts, hts, hdotted⟩
        exact ⟨_, .cons htake (.cons htakePart hts), .cons hkind hpartKind hdotted⟩
      · cases hround
        exact ⟨[], .nil q, .nil⟩

/-- The braces of a block with what is between them. -/
theorem parseBlock_sound {nested : Parse σ ParsedStatement} (hnested : Yields room nested .statement)
    {offset : Nat} {children : List ParsedStatement} (h : parseBlock nested offset p = .ok children q) :
    ∃ l ts r, Takes p (l :: (ts ++ [r])) q ∧ l.kind = .kLBrace ∧ r.kind = .kRBrace ∧
      Declares room (.statements children) ts := by
  rw [parseBlock] at h
  rcases bind_eq_ok.mp h with ⟨l, p₁, hl, h⟩
  rcases expect_eq_ok hl with ⟨hlKind, rfl, htakeL⟩
  rw [bind_of_ok (get_run p₁)] at h
  rcases bind_eq_ok.mp h with ⟨children, p₂, hchildren, h⟩
  rcases bind_eq_ok.mp h with ⟨r, p₃, hr, h⟩
  rcases expect_eq_ok hr with ⟨hrKind, rfl, htakeR⟩
  cases h
  rcases (parseChildren_loop nested offset).sound hnested hchildren with ⟨ts, hts, hder, -⟩
  exact ⟨_, ts, _, .cons htakeL (hts.snoc htakeR), hlKind, hrKind, hder⟩

theorem parseAssignment_sound {path : List Bytes} {offset : Nat} {st : ParsedStatement}
    (h : parseAssignment path offset p = .ok st q) :
    ∃ assign us semi e, Takes p (assign :: (us ++ [semi])) q ∧ assign.kind = .kAssign ∧
      semi.kind = .kSemicolon ∧ Derives (.expr e) us ∧ st = .assignment offset path e := by
  rw [parseAssignment] at h
  rcases bind_eq_ok.mp h with ⟨assign, p₁, hassign, h⟩
  rcases expect_eq_ok hassign with ⟨hassignKind, rfl, htakeAssign⟩
  rcases bind_eq_ok.mp h with ⟨e, p₂, he, h⟩
  rcases bind_eq_ok.mp h with ⟨semi, p₃, hsemi, h⟩
  rcases expect_eq_ok hsemi with ⟨hsemiKind, rfl, htakeSemi⟩
  cases h
  rcases (productions_sound _).expr he with ⟨us, hus, hder⟩
  exact ⟨_, us, _, e, .cons htakeAssign (hus.snoc htakeSemi), hassignKind, hsemiKind, hder, rfl⟩

theorem parseStatementWith_sound {nested : Parse σ ParsedStatement} (hnested : Yields room nested .statement) :
    Yields (room + 1) (parseStatementWith nested) .statement := by
  intro p st q h
  rw [parseStatementWith, bind_of_ok (get_run p), bind_of_ok (check_run _ p), ite_run] at h
  split at h
  · next hkeyword =>
    rcases bind_eq_ok.mp h with ⟨keyword, p₁, htake, h⟩
    rcases bind_eq_ok.mp h with ⟨path, p₂, hpath, h⟩
    rcases bind_eq_ok.mp h with ⟨semi, p₃, hsemi, h⟩
    cases h
    cases cur_of_take htake
    rcases expect_eq_ok hpath with ⟨hpathKind, rfl, htakePath⟩
    rcases expect_eq_ok hsemi with ⟨hsemiKind, rfl, htakeSemi⟩
    exact ⟨_, .cons htake (.cons htakePath (.single htakeSemi)),
      .include (of_decide_eq_true hkeyword) hpathKind hsemiKind⟩
  · rcases bind_eq_ok.mp h with ⟨first, p₁, hfirst, h⟩
    rcases expect_eq_ok hfirst with ⟨hfirstKind, rfl, htake⟩
    rw [bind_of_ok (check_run _ p₁), ite_run] at h
    split at h
    · next hlabelKind =>
      rcases bind_eq_ok.mp h with ⟨label, p₂, htakeLabel, h⟩
      cases cur_of_take htakeLabel
      rw [bind_of_ok (get_run p₂), ite_run] at h
      split at h
      · cases h
      · rcases bind_eq_ok.mp h with ⟨children, p₃, hblock, h⟩
        cases h
        rcases parseBlock_sound hnested hblock with ⟨l, ts, r, hts, hl, hr, hder⟩
        exact ⟨_, .cons htake (.cons htakeLabel hts),
          .labelled hfirstKind (of_decide_eq_true hlabelKind) hl hder hr⟩
    · rw [bind_of_ok (check_run _ p₁), ite_run] at h
      split at h
      · rcases bind_eq_ok.mp h with ⟨children, p₃, hblock, h⟩
        cases h
        rcases parseBlock_sound hnested hblock with ⟨l, ts, r, hts, hl, hr, hder⟩
        exact ⟨_, .cons htake hts, .block hfirstKind hl hder hr⟩
      · rw [bind_of_ok (get_run p₁)] at h
        rcases bind_eq_ok.mp h with ⟨path, p₂, hpath, h⟩
        rcases parsePath_sound hpath with ⟨ts, hts, hdotted⟩
        rcases parseAssignment_sound h with ⟨assign, us, semi, e, hus, hassign, hsemi, hder, rfl⟩
        exact ⟨_, .cons htake (hts.append hus), .assignment hfirstKind hdotted hassign hder hsemi⟩

/-- Every statement production at every depth is sound. -/
theorem parseStatementIn_sound (room : Nat) :
    Yields room (parseStatementIn room : Parse σ ParsedStatement) .statement := by
  induction room with
  | zero => exact fun h => absurd h tooDeep_ne_ok
  | succ room ih => exact parseStatementWith_sound ih

/-! ### Every statement the parser takes -/

section Complete

/-- What the parser is to do on the tokens of a passage, if the depth of its expressions allows it. -/
def ParsesPassage (σ : Type) [TokenSource σ] (room : Nat) (ts : List Token) : Passage → Prop
  | .statement st => ∀ {p q : Parser σ}, Takes p ts q → Gives (parseStatementIn room) p st q
  | .statements stmts => ∀ {close : TokenKind} {loop : Nat → Parse σ (List ParsedStatement)} (fuel : Nat)
      {p q : Parser σ}, StatementLoop close (parseStatementIn room) loop → Takes p ts q → p.left < fuel →
        q.cur.kind = close → Gives (loop fuel) p stmts q

theorem parses_include {keyword path semi : Token} (hkeyword : keyword.kind = .kInclude)
    (hpath : path.kind = .kString) (hsemi : semi.kind = .kSemicolon) :
    ParsesPassage σ (room + 1) [keyword, path, semi] (.statement (.include keyword.offset path.text)) := by
  intro p q htakes
  rcases htakes.cons_inv with ⟨rfl, p₁, htake, htakes⟩
  rcases htakes.cons_inv with ⟨rfl, p₂, htakePath, htakes⟩
  rcases htakes.cons_inv with ⟨rfl, p₃, htakeSemi, hnil⟩
  cases hnil.nil_inv
  apply Gives.step (get_run p)
  apply Gives.step (check_run _ p)
  simp only [hkeyword, decide_true, if_true]
  apply Gives.step htake
  apply expect_gives hpath htakePath
  exact expect_gives hsemi htakeSemi (.of_ok rfl)

/-- A statement that begins with a name: its dispatch on the token behind that. -/
theorem parseStatementWith_of_name {nested : Parse σ ParsedStatement} (hname : p.cur.kind = .kIdent)
    (htake : take p = .ok p.cur q) :
    parseStatementWith nested p = (do
      if ← check .kString then
        let label ← take
        let cur := (← get).cur
        if cur.kind ≠ .kLBrace then
          raise .kBadType cur.offset "expected '\x7b' after block label"
        return .block p.cur.offset p.cur.text (some label.text) (← parseBlock nested p.cur.offset)
      if ← check .kLBrace then
        return .block p.cur.offset p.cur.text none (← parseBlock nested p.cur.offset)
      let path ← parsePath (← get).fuel
      parseAssignment (p.cur.text :: path) p.cur.offset : Parse σ _) q := by
  rw [parseStatementWith, bind_of_ok (get_run p), bind_of_ok (check_run _ p), ite_run,
    if_neg (by rw [hname]; decide), bind_of_ok ((expect_of_eq hname _).trans htake)]

theorem parseBlock_gives {children : List ParsedStatement} {ts : List Token} {l r : Token}
    (hl : l.kind = .kLBrace) (h : ParsesPassage σ room ts (.statements children)) (hr : r.kind = .kRBrace)
    (offset : Nat) (htakes : Takes p (l :: (ts ++ [r])) q) :
    Gives (parseBlock (parseStatementIn room) offset) p children q := by
  rcases htakes.between_inv with ⟨rfl, p₁, p₂, htakeL, hts, rfl, htakeR⟩
  apply expect_gives hl htakeL
  apply Gives.step (get_run p₁)
  apply Gives.bind (h _ (parseChildren_loop _ offset) hts p₁.left_lt_fuel hr)
  exact expect_gives hr htakeR (.of_ok rfl)

theorem parses_block {children : List ParsedStatement} {ts : List Token} {name l r : Token}
    (hname : name.kind = .kIdent) (hl : l.kind = .kLBrace)
    (h : ParsesPassage σ room ts (.statements children)) (hr : r.kind = .kRBrace) :
    ParsesPassage σ (room + 1) (name :: l :: (ts ++ [r]))
      (.statement (.block name.offset name.text none children)) := by
  intro p q htakes
  rcases htakes.cons_inv with ⟨rfl, p₁, htake, htakes⟩
  have hbrace : p₁.cur.kind = .kLBrace := by
    rcases htakes.cons_inv with ⟨rfl, -⟩
    exact hl
  refine Gives.congr ?_ (parseStatementWith_of_name hname htake)
  apply Gives.step (check_run _ p₁)
  simp only [hbrace, reduceCtorEq, decide_false, Bool.false_eq_true, if_false]
  apply Gives.step (check_run _ p₁)
  simp only [hbrace, decide_true, if_true]
  exact (parseBlock_gives hl h hr _ htakes).bind (.of_ok rfl)

theorem parses_labelled {children : List ParsedStatement} {ts : List Token} {name label l r : Token}
    (hname : name.kind = .kIdent) (hlabel : label.kind = .kString) (hl : l.kind = .kLBrace)
    (h : ParsesPassage σ room ts (.statements children)) (hr : r.kind = .kRBrace) :
    ParsesPassage σ (room + 1) (name :: label :: l :: (ts ++ [r]))
      (.statement (.block name.offset name.text (some label.text) children)) := by
  intro p q htakes
  rcases htakes.cons_inv with ⟨rfl, p₁, htake, htakes⟩
  rcases htakes.cons_inv with ⟨rfl, p₂, htakeLabel, htakes⟩
  have hbrace : p₂.cur.kind = .kLBrace := by
    rcases htakes.cons_inv with ⟨rfl, -⟩
    exact hl
  refine Gives.congr ?_ (parseStatementWith_of_name hname htake)
  apply Gives.step (check_run _ p₁)
  simp only [hlabel, decide_true, if_true]
  apply Gives.step htakeLabel
  apply Gives.step (get_run p₂)
  simp only [hbrace, ne_eq, not_true_eq_false, if_false]
  exact (parseBlock_gives hl h hr _ htakes).bind (.of_ok rfl)

theorem parses_nil : ParsesPassage σ room [] (.statements []) := by
  intro close loop fuel p q hloop htakes hfuel hclose
  obtain ⟨fuel, rfl⟩ := Nat.exists_eq_add_one_of_ne_zero (Nat.ne_zero_of_lt hfuel)
  cases htakes.nil_inv
  exact .of_ok (hloop.close hclose)

variable [LawfulTokenSource σ]

theorem parsePath_of_dotted {path : List Bytes} {ts : List Token} (h : Dotted path ts) {fuel : Nat}
    (hts : Takes p ts q) (hfuel : p.left < fuel) (hend : q.cur.kind ≠ .kDot) :
    parsePath fuel p = .ok path q := by
  induction h generalizing p fuel with
  | nil =>
      obtain ⟨fuel, rfl⟩ := Nat.exists_eq_add_one_of_ne_zero (Nat.ne_zero_of_lt hfuel)
      cases hts.nil_inv
      rw [parsePath, bind_of_ok (accept_of_ne hend)]
      rfl
  | cons hdot hpart _ ih =>
      obtain ⟨fuel, rfl⟩ := Nat.exists_eq_add_one_of_ne_zero (Nat.ne_zero_of_lt hfuel)
      rcases hts.cons_inv with ⟨rfl, p₁, htakeDot, hts⟩
      rcases hts.cons_inv with ⟨rfl, p₂, htakePart, hts⟩
      have hleft : p₂.left < fuel := by
        have hfirst := left_of_take htakeDot (by rw [hdot]; decide)
        have hsecond := left_of_take htakePart (by rw [hpart]; decide)
        omega
      rw [parsePath, bind_of_ok (accept_of_eq hdot htakeDot)]
      simp only [if_true]
      rw [bind_of_ok ((expect_of_eq hpart _).trans htakePart), bind_of_ok (ih hts hleft)]
      rfl

theorem parses_assignment {path : List Bytes} {e : Expr} {ts us : List Token} {first assign semi : Token}
    (hfirst : first.kind = .kIdent) (hpath : Dotted path ts) (hassign : assign.kind = .kAssign)
    (h : Derives (.expr e) us) (hsemi : semi.kind = .kSemicolon) :
    ParsesPassage σ (room + 1) (first :: (ts ++ assign :: (us ++ [semi])))
      (.statement (.assignment first.offset (first.text :: path) e)) := by
  intro p q htakes
  rcases htakes.cons_inv with ⟨rfl, p₁, htake, htakes⟩
  rcases htakes.append_inv with ⟨p₂, hts, htakes⟩
  rcases htakes.between_inv with ⟨rfl, p₃, p₄, htakeAssign, hus, rfl, htakeSemi⟩
  -- behind the name is a dot or the equals sign
  have hnext : p₁.cur.kind = .kDot ∨ p₁.cur.kind = .kAssign := by
    cases hpath with
    | nil =>
        cases hts.nil_inv
        exact .inr hassign
    | cons hdot =>
        rcases hts.cons_inv with ⟨rfl, -⟩
        exact .inl hdot
  have hstring : p₁.cur.kind ≠ .kString := by
    rcases hnext with hnext | hnext <;> rw [hnext] <;> decide
  have hbrace : p₁.cur.kind ≠ .kLBrace := by
    rcases hnext with hnext | hnext <;> rw [hnext] <;> decide
  refine Gives.congr ?_ (parseStatementWith_of_name hfirst htake)
  apply Gives.step (check_run _ p₁)
  simp only [hstring, decide_false, Bool.false_eq_true, if_false]
  apply Gives.step (check_run _ p₁)
  simp only [hbrace, decide_false, Bool.false_eq_true, if_false]
  apply Gives.step (get_run p₁)
  apply Gives.step (parsePath_of_dotted hpath hts p₁.left_lt_fuel (by rw [hassign]; decide))
  apply expect_gives hassign htakeAssign
  apply Gives.bind (h.parses _ hus (not_continues_of_closing (by rw [hsemi]; decide)))
  exact expect_gives hsemi htakeSemi (.of_ok rfl)

theorem parses_strayStatement {stmts : List ParsedStatement} {ts : List Token} {semi : Token}
    (hsemi : semi.kind = .kSemicolon) (h : ParsesPassage σ room ts (.statements stmts)) :
    ParsesPassage σ room (semi :: ts) (.statements stmts) := by
  intro close loop fuel p q hloop htakes hfuel hclose
  obtain ⟨fuel, rfl⟩ := Nat.exists_eq_add_one_of_ne_zero (Nat.ne_zero_of_lt hfuel)
  rcases htakes.cons_inv with ⟨rfl, p₁, htake, hts⟩
  have hlt := left_of_take htake (by rw [hsemi]; decide)
  exact (h fuel hloop hts (by omega) hclose).congr (hloop.stray hsemi htake)

theorem parses_cons {st : ParsedStatement} {stmts : List ParsedStatement} {ts us : List Token}
    (h : ParsesPassage σ room ts (.statement st)) (hs : ParsesPassage σ room us (.statements stmts))
    (hopens : ∃ t vs, ts = t :: vs ∧ Opens t.kind) (hts : ∀ t ∈ ts, t.kind ≠ .kEof) :
    ParsesPassage σ room (ts ++ us) (.statements (st :: stmts)) := by
  intro close loop fuel p q hloop htakes hfuel hclose
  obtain ⟨fuel, rfl⟩ := Nat.exists_eq_add_one_of_ne_zero (Nat.ne_zero_of_lt hfuel)
  rcases htakes.append_inv with ⟨p₁, hp₁, hus⟩
  have hleft := hp₁.left_le hts
  rcases hopens with ⟨t, vs, rfl, ht⟩
  have hcur : Opens p.cur.kind := by
    rcases hp₁.cons_inv with ⟨rfl, -⟩
    exact ht
  refine Gives.congr ?_ (hloop.statement hcur)
  apply (h hp₁).bind
  apply (hs fuel hloop hus (by rw [List.length_cons] at hleft; omega) hclose).bind
  exact .of_ok rfl

/-- Every passage is parsed as what its derivation yields. -/
theorem Declares.parses {φ : Passage} {ts : List Token} (h : Declares room φ ts) :
    ParsesPassage σ room ts φ := by
  induction h with
  | «include» hkeyword hpath hsemi => exact parses_include hkeyword hpath hsemi
  | block hname hl _ hr ih => exact parses_block hname hl ih hr
  | labelled hname hlabel hl _ hr ih => exact parses_labelled hname hlabel hl ih hr
  | assignment hfirst hpath hassign h hsemi => exact parses_assignment hfirst hpath hassign h hsemi
  | nil => exact parses_nil
  | stray hsemi _ ih => exact parses_strayStatement hsemi ih
  | cons h _ ih ihs => exact parses_cons ih ihs h.opens h.not_eof

end Complete

/-! ### Sources -/

/-- The lexer gives `ts` and then the end of the input. -/
inductive Tokenizes : Lexer → List Token → Prop where
  | eof {l l' : Lexer} {t : Token} (h : nextToken l = .ok t l') (ht : t.kind = .kEof) : Tokenizes l []
  | token {l l' : Lexer} {t : Token} {ts : List Token} (h : nextToken l = .ok t l') (ht : t.kind ≠ .kEof)
      (hts : Tokenizes l' ts) : Tokenizes l (t :: ts)

theorem start_of_nextToken {l l' : Lexer} {t : Token} (h : nextToken l = .ok t l') :
    Parser.start l = .ok { lexer := l', cur := t } := by
  have hnext : TokenSource.next l = .ok t l' := h
  rw [Parser.start, hnext]

/-- The parser on a source takes just its tokens. -/
theorem Tokenizes.takes {l : Lexer} {ts : List Token} (h : Tokenizes l ts) :
    ∃ p q : Parser Lexer, Parser.start l = .ok p ∧ Takes p ts q ∧ q.cur.kind = .kEof := by
  induction h with
  | eof h ht => exact ⟨_, _, start_of_nextToken h, .nil _, ht⟩
  | @token l l' t ts h ht _ ih =>
      rcases ih with ⟨p, q, hstart, htakes, hend⟩
      have htake : take ({ lexer := l', cur := t } : Parser Lexer) = .ok t p :=
        take_of_nextToken (start_eq_ok hstart)
      exact ⟨_, q, start_of_nextToken h, .cons htake htakes, hend⟩

theorem Takes.tokenizes {p q : Parser Lexer} {ts : List Token} (h : Takes p ts q) :
    ∀ {l : Lexer}, nextToken l = .ok p.cur p.lexer → (∀ t ∈ ts, t.kind ≠ .kEof) → q.cur.kind = .kEof →
      Tokenizes l ts := by
  induction h with
  | nil => exact fun hnext _ hend => .eof hnext hend
  | cons htake _ ih =>
      intro l hnext hts hend
      rcases List.forall_mem_cons.mp hts with ⟨ht, hts⟩
      exact .token hnext ht (ih (take_eq_ok htake).2 hts hend)

theorem parseSource_declares {data : Bytes} {stmts : List ParsedStatement} (h : parseSource data = .ok stmts) :
    ∃ ts, Tokenizes { rest := data } ts ∧ Declares kMaxDepth (.statements stmts) ts := by
  rcases parseSource_eq_ok h with ⟨p, q, hstart, hrun⟩
  rcases parseStatements_loop.sound (parseStatementIn_sound kMaxDepth) hrun with ⟨ts, hts, hder, hend⟩
  exact ⟨ts, hts.tokenizes (start_eq_ok hstart) hder.not_eof hend, hder⟩

theorem Declares.parseSource_gives {data : Bytes} {stmts : List ParsedStatement} {ts : List Token}
    (htokens : Tokenizes { rest := data } ts) (h : Declares kMaxDepth (.statements stmts) ts) :
    parseSource data = .ok stmts ∨ ∃ offset,
      parseSource data = .error (.thrown ⟨.kDepthExceeded, offset, "nesting too deep"⟩) := by
  rcases htokens.takes with ⟨p, q, hstart, htakes, hend⟩
  have hdocument : parseDocument p = parseStatements p.fuel p := by
    rw [parseDocument, bind_of_ok (get_run p)]
  rcases h.parses p.fuel parseStatements_loop htakes p.left_lt_fuel hend with hrun | ⟨offset, s, hrun⟩
  · exact .inl (parseSource_ok hstart (hdocument.trans hrun))
  · exact .inr ⟨offset, parseSource_error hstart (hdocument.trans hrun)⟩

/-- The parser accepts the sources whose tokens the document grammar derives, blocks nested no deeper
than the limit, and returns the only tree they have; of these it refuses none but for the depth. -/
theorem parseSource_grammar (data : Bytes) :
    (∀ stmts, parseSource data = .ok stmts → ∃ ts, Tokenizes { rest := data } ts ∧
      Declares kMaxDepth (.statements stmts) ts ∧
      ∀ stmts', Declares kMaxDepth (.statements stmts') ts → stmts' = stmts) ∧
    ∀ stmts ts, Tokenizes { rest := data } ts → Declares kMaxDepth (.statements stmts) ts →
      parseSource data = .ok stmts ∨ ∃ offset,
        parseSource data = .error (.thrown ⟨.kDepthExceeded, offset, "nesting too deep"⟩) := by
  refine ⟨fun stmts h => ?_, fun stmts ts htokens h => h.parseSource_gives htokens⟩
  rcases parseSource_declares h with ⟨ts, htokens, hder⟩
  refine ⟨ts, htokens, hder, fun stmts' hder' => ?_⟩
  rcases hder'.parseSource_gives htokens with h' | ⟨offset, h'⟩
  · cases h'.symm.trans h
    rfl
  · cases h'.symm.trans h

end Bytewright.Cfgscript
