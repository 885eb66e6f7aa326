import Bytewright.Verification.Cfgscript.Reparse

/-! # Parsing canonical statements -/

namespace Bytewright.Cfgscript

open Bytewright.Common Bytewright.Library

/-! ### Paths -/

theorem length_le_dotted (path : List Bytes) : path.length ≤ (dotted path).length := by
  induction path with
  | nil => exact Nat.zero_le _
  | cons name path ih =>
      simp only [dotted, List.flatMap_cons, List.length_append, List.length_cons] at ih ⊢
      have : (ascii ".").length = 1 := rfl
      omega

/-- The token behind the first component of a path: a dot, or the sign of the assignment. -/
theorem scans_dotted (path : List Bytes) (text : Bytes) :
    ∃ kind r, kind ∈ [TokenKind.kDot, .kAssign] ∧
      Scans (dotted path ++ (ascii " = " ++ text)) { kind } r ∧ path.length ≤ r.length + 1 := by
  cases path with
  | nil => exact ⟨.kAssign, _, by decide, scans_assign text, Nat.zero_le _⟩
  | cons name path =>
      have hscan : Scans (ch '.' :: (name ++ (dotted path ++ (ascii " = " ++ text)))) { kind := .kDot }
          (name ++ (dotted path ++ (ascii " = " ++ text))) := scans_punctuator (by decide) rfl
      have htext : dotted (name :: path) ++ (ascii " = " ++ text) =
          ch '.' :: (name ++ (dotted path ++ (ascii " = " ++ text))) := by
        simp [dotted, ascii, ch, Char.toUInt8]
      have hlength := length_le_dotted path
      rw [htext]
      exact ⟨.kDot, _, by decide, hscan, by simp; omega⟩

theorem parsePath_run {text : Bytes} (path : List Bytes) (hnames : ∀ name ∈ path, IsName name) :
    ∀ (fuel : Nat) (p : Parser Lexer), path.length < fuel →
      p.At (dotted path ++ (ascii " = " ++ text)) →
      ∃ q, parsePath fuel p = .ok path q ∧ q.At (ascii " = " ++ text) := by
  induction path with
  | nil =>
      intro fuel p hfuel hp
      obtain ⟨fuel, rfl⟩ := Nat.exists_eq_add_one_of_ne_zero (Nat.ne_zero_of_lt hfuel)
      have hdot : p.cur.kind ≠ .kDot := by
        rw [hp.cur_kind (scans_assign text)]
        decide
      refine ⟨p, ?_, hp⟩
      rw [parsePath, bind_of_ok (accept_of_ne hdot)]
      rfl
  | cons name path ih =>
      intro fuel p hfuel hp
      obtain ⟨fuel, rfl⟩ := Nat.exists_eq_add_one_of_ne_zero (Nat.ne_zero_of_lt hfuel)
      have hdot : Scans (ch '.' :: (name ++ (dotted path ++ (ascii " = " ++ text)))) { kind := .kDot }
          (name ++ (dotted path ++ (ascii " = " ++ text))) := scans_punctuator (by decide) rfl
      have heq : dotted (name :: path) ++ (ascii " = " ++ text) =
          ch '.' :: (name ++ (dotted path ++ (ascii " = " ++ text))) := by
        simp [dotted, ascii, ch, Char.toUInt8]
      rw [heq] at hp
      have hname := scans_name (hnames name (List.mem_cons_self ..)) (stops_dotted path text)
      rcases scans_dotted path text with ⟨kind, r, -, hnext, -⟩
      rcases hp.take hdot ⟨_, _, hname⟩ with ⟨p₁, htake, hp₁⟩
      rcases hp₁.expect hname ⟨_, _, hnext⟩ rfl "identifier after '.'" with ⟨p₂, hexpect, hp₂⟩
      rcases ih (fun n hn => hnames n (List.mem_cons_of_mem _ hn)) fuel p₂ (by simpa using hfuel) hp₂
        with ⟨q, hpath, hq⟩
      refine ⟨q, ?_, hq⟩
      have htext : p₁.cur.text = name := hp₁.cur_text hname
      rw [parsePath, bind_of_ok (accept_of_eq (hp.cur_kind hdot) htake)]
      simp only [if_true]
      rw [bind_of_ok hexpect, bind_of_ok hpath, htext]
      rfl

/-! ### Statements -/

section Statements

variable {v : Value} {node : Node} {nodes : List Node} {label : Option Bytes} {name : Bytes}
  {path : List Bytes} {ws t us rest : Bytes} {p : Parser Lexer}

theorem builds_assignment {e : Expr} (h : Evaluates kMaxDepth e v) (offset : Nat) :
    Builds (.assignment offset path e) (.assignment path v) := by
  intro env
  rw [buildNode, h env 1 (by decide)]
  exact ⟨_, rfl⟩

theorem settles_assignment (h : Spells (.value v) t) (ih : Reads t (.value v)) (hrest : Ready rest)
    (offset : Nat) (hp : p.At (ascii " = " ++ (t ++ ch ';' :: rest))) :
    Settles (parseAssignment path offset) p (v.fits kMaxDepth = true) fun st q =>
      q.At rest ∧ Builds st (.assignment path v) := by
  rcases h.scans_value (c := ch ';') (by decide) rest with ⟨tok, r, -, hfirst⟩
  have hsemi : Scans (ch ';' :: rest) { kind := .kSemicolon } rest :=
    scans_punctuator (by decide) rfl
  rcases hp.expect (scans_assign _) ⟨_, _, hfirst.blank blank_space⟩ rfl "'=' in assignment" with
    ⟨p₁, hexpect, hp₁⟩
  apply Settles.step hexpect
  refine (ih kMaxDepth rest (by decide) (hp₁.blank blank_space)).andThen fun e q hq => ?_
  rcases hq.1.expect hsemi hrest rfl "';' after assignment" with ⟨q', hexpect, hq'⟩
  apply Settles.step hexpect
  exact .of_ok rfl ⟨hq', builds_assignment hq.2 _⟩

theorem reads_assignment (hpath : path ≠ []) (hnames : ∀ name ∈ path, IsName name)
    (h : Spells (.value v) t) (ih : Reads t (.value v)) :
    Reads (renderPath path ++ (ascii " = " ++ (t ++ [ch ';']))) (.node (.assignment path v)) := by
  intro room p rest hwf hrest hp
  cases path with
  | nil => exact absurd rfl hpath
  | cons name path =>
      obtain ⟨room, rfl⟩ := Nat.exists_eq_add_one_of_ne_zero (Nat.one_le_iff_ne_zero.mp hwf.1)
      have htext : renderPath (name :: path) ++ (ascii " = " ++ (t ++ [ch ';'])) ++ rest =
          name ++ (dotted path ++ (ascii " = " ++ (t ++ ch ';' :: rest))) := by
        simp [renderPath, dotted]
      rw [htext] at hp
      have hname := scans_name (hnames name (List.mem_cons_self ..))
        (stops_dotted path (t ++ ch ';' :: rest))
      rcases scans_dotted path (t ++ ch ';' :: rest) with ⟨kind, r, hkind, hnext, hlength⟩
      rcases h.scans_value (c := ch ';') (by decide) rest with ⟨tok, r', -, hfirst⟩
      rcases hp.expect hname ⟨_, _, hnext⟩ rfl "identifier at start of statement" with
        ⟨p₁, hexpect, hp₁⟩
      have hfuel : path.length < p₁.fuel := hp₁.lt_fuel hnext hlength
      rcases parsePath_run path (fun n hn => hnames n (List.mem_cons_of_mem _ hn)) p₁.fuel p₁ hfuel hp₁
        with ⟨p₂, hpath, hp₂⟩
      have hident : p.cur.kind = .kIdent := hp.cur_kind hname
      have hcur : p.cur.text = name := hp.cur_text hname
      have hstring : p₁.cur.kind ≠ .kString ∧ p₁.cur.kind ≠ .kLBrace := by
        rw [hp₁.cur_kind hnext]
        revert hkind
        cases kind <;> decide
      show Settles (parseStatementWith (parseStatementIn room)) p _ _
      rw [parseStatementWith]
      apply Settles.step (get_run p)
      apply Settles.step (check_run _ p)
      simp only [hident, reduceCtorEq, decide_false, Bool.false_eq_true, if_false]
      apply Settles.step hexpect
      apply Settles.step (check_run _ p₁)
      simp only [hstring.1, decide_false, Bool.false_eq_true, if_false]
      apply Settles.step (check_run _ p₁)
      simp only [hstring.2, decide_false, Bool.false_eq_true, if_false]
      apply Settles.step (get_run p₁)
      apply Settles.step hpath
      rw [hcur]
      exact settles_assignment h ih hrest _ hp₂

theorem reads_include (path : Bytes) :
    Reads (ascii "include" ++ (ascii " " ++ (quoted path ++ [ch ';']))) (.node (.include path)) := by
  intro room p rest hwf hrest hp
  obtain ⟨room, rfl⟩ := Nat.exists_eq_add_one_of_ne_zero (Nat.one_le_iff_ne_zero.mp hwf)
  have htext : ascii "include" ++ (ascii " " ++ (quoted path ++ [ch ';'])) ++ rest =
      ascii "include" ++ ch ' ' :: (quoted path ++ ch ';' :: rest) := by
    simp [ascii, ch, Char.toUInt8]
  rw [htext] at hp
  have hkeyword : Scans (ascii "include" ++ ch ' ' :: (quoted path ++ ch ';' :: rest)) _ _ :=
    scans_include (by decide)
  have hstring : Scans (ch ' ' :: (quoted path ++ ch ';' :: rest)) _ _ :=
    (scans_quoted path (ch ';' :: rest)).blank blank_space
  have hsemi : Scans (ch ';' :: rest) { kind := .kSemicolon } rest :=
    scans_punctuator (by decide) rfl
  have hkind : p.cur.kind = .kInclude := hp.cur_kind hkeyword
  rcases hp.take hkeyword ⟨_, _, hstring⟩ with ⟨p₁, htake, hp₁⟩
  rcases hp₁.expect hstring ⟨_, _, hsemi⟩ rfl "string path after 'include'" with ⟨p₂, hexpect, hp₂⟩
  rcases hp₂.expect hsemi hrest rfl "';' after include path" with ⟨q, hexpect', hq⟩
  have hpath : p₁.cur.text = path := hp₁.cur_text hstring
  refine Settles.iff (Settles.of_ok (a := .include p.cur.offset path) ?_ ⟨hq, fun env => ⟨env, rfl⟩⟩)
    (by simp [Node.Fits, Node.AllValues])
  show parseStatementWith (parseStatementIn room) p = _
  rw [parseStatementWith, bind_of_ok (get_run p), bind_of_ok (check_run _ p)]
  simp only [hkind, decide_true, if_true]
  rw [bind_of_ok htake, bind_of_ok hexpect, bind_of_ok hexpect', hpath]
  rfl

/-! ### Blocks -/

theorem scans_openBrace (rest : Bytes) : Scans (ascii " \x7b" ++ rest) { kind := .kLBrace } rest := by
  have h : Scans (ch '{' :: rest) { kind := .kLBrace } rest := scans_punctuator (by decide) rfl
  exact h.blank blank_space

theorem settles_block {room : Nat} (h : Spells (.nodes nodes) t) (ih : Reads t (.nodes nodes))
    (hwf : NodesWellFormed room nodes) (hrest : Ready rest) (offset : Nat)
    (hp : p.At (ascii " \x7b" ++ (t ++ ch '}' :: rest))) :
    Settles (parseBlock (parseStatementIn room) offset) p (NodesFit nodes) fun stmts q =>
      q.At rest ∧ BuildsAll stmts nodes := by
  have hopen := scans_openBrace (t ++ ch '}' :: rest)
  have hclose : Scans (ch '}' :: rest) { kind := .kRBrace } rest :=
    scans_punctuator (by decide) rfl
  rcases h.scans_nodes (.inr ⟨rest, rfl⟩) with ⟨tok, r, hfirst, hcount⟩
  rcases hp.expect hopen ⟨_, _, hfirst⟩ rfl "'\x7b' to open block" with ⟨p₁, hexpect, hp₁⟩
  apply Settles.step hexpect
  apply Settles.step (get_run p₁)
  have hfuel : nodes.length < p₁.fuel := hp₁.lt_fuel hfirst hcount
  refine (ih room offset p₁.fuel rest hwf hfuel hp₁).andThen fun stmts q hq => ?_
  rcases hq.1.expect hclose hrest rfl "'\x7d' to close block" with ⟨q', hexpect, hq'⟩
  apply Settles.step hexpect
  exact .of_ok rfl ⟨hq', hq.2⟩

theorem builds_block {stmts : List ParsedStatement} (h : BuildsAll stmts nodes) (offset : Nat) :
    Builds (.block offset name label stmts) (.block name label nodes) := by
  intro env
  rcases h ([] :: env) with ⟨env', h⟩
  exact ⟨env, by rw [buildNode, h]; rfl⟩

theorem reads_block (hname : IsName name) (h : Spells (.nodes nodes) t) (ih : Reads t (.nodes nodes)) :
    Reads (name ++ (renderLabel label ++ (ascii " \x7b" ++ (t ++ [ch '}']))))
      (.node (.block name label nodes)) := by
  intro room p rest hwf hrest hp
  obtain ⟨room, rfl⟩ := Nat.exists_eq_add_one_of_ne_zero (Nat.one_le_iff_ne_zero.mp hwf.1)
  have htext : name ++ (renderLabel label ++ (ascii " \x7b" ++ (t ++ [ch '}']))) ++ rest =
      name ++ (renderLabel label ++ (ascii " \x7b" ++ (t ++ ch '}' :: rest))) := by simp
  rw [htext] at hp
  have hscan := scans_name hname (stops_label label (t ++ ch '}' :: rest))
  have hopen := scans_openBrace (t ++ ch '}' :: rest)
  have hident : p.cur.kind = .kIdent := hp.cur_kind hscan
  have hcur : p.cur.text = name := hp.cur_text hscan
  show Settles (parseStatementWith (parseStatementIn room)) p _ _
  rw [parseStatementWith]
  apply Settles.step (get_run p)
  apply Settles.step (check_run _ p)
  simp only [hident, reduceCtorEq, decide_false, Bool.false_eq_true, if_false]
  cases label with
  | none =>
      rcases hp.expect hscan ⟨_, _, hopen⟩ rfl "identifier at start of statement" with
        ⟨p₁, hexpect, hp₁⟩
      have hkind : p₁.cur.kind = .kLBrace := hp₁.cur_kind hopen
      apply Settles.step hexpect
      apply Settles.step (check_run _ p₁)
      simp only [hkind, reduceCtorEq, decide_false, Bool.false_eq_true, if_false]
      apply Settles.step (check_run _ p₁)
      simp only [hkind, decide_true, if_true]
      rw [hcur]
      exact (settles_block h ih hwf.2.2 hrest _ hp₁).map fun stmts q hq =>
        ⟨hq.1, builds_block hq.2 _⟩
  | some label =>
      have hstring : Scans (renderLabel (some label) ++ (ascii " \x7b" ++ (t ++ ch '}' :: rest)))
          { kind := .kString, text := label } (ascii " \x7b" ++ (t ++ ch '}' :: rest)) := by
        rw [renderLabel, List.append_assoc]
        exact (scans_quoted label _).blank blank_space
      rcases hp.expect hscan ⟨_, _, hstring⟩ rfl "identifier at start of statement" with
        ⟨p₁, hexpect, hp₁⟩
      have hkind : p₁.cur.kind = .kString := hp₁.cur_kind hstring
      have htext : p₁.cur.text = label := hp₁.cur_text hstring
      rcases hp₁.take hstring ⟨_, _, hopen⟩ with ⟨p₂, htake, hp₂⟩
      have hbrace : p₂.cur.kind = .kLBrace := hp₂.cur_kind hopen
      apply Settles.step hexpect
      apply Settles.step (check_run _ p₁)
      simp only [hkind, decide_true, if_true]
      apply Settles.step htake
      apply Settles.step (get_run p₂)
      simp only [hbrace, ne_eq, not_true_eq_false, if_false]
      rw [hcur, htext]
      exact (settles_block h ih hwf.2.2 hrest _ hp₂).map fun stmts q hq =>
        ⟨hq.1, builds_block hq.2 _⟩

theorem reads_noNodes (hws : Blank ws) : Reads ws (.nodes []) := by
  intro room offset fuel p rest hwf hfuel hp
  obtain ⟨fuel, rfl⟩ := Nat.exists_eq_add_one_of_ne_zero (Nat.ne_zero_of_lt hfuel)
  have hclose : Scans (ch '}' :: rest) { kind := .kRBrace } rest :=
    scans_punctuator (by decide) rfl
  have hp := hp.blank hws
  have hrun : parseChildren (parseStatementIn room) offset (fuel + 1) p = .ok [] p := by
    simp [parseChildren, bind_run, hp.cur_kind hclose]
  refine (Settles.of_ok hrun ⟨hp, fun env => ⟨env, rfl⟩⟩).iff ?_
  simp [NodesFit, AllNodes]

theorem buildsAll_cons {st : ParsedStatement} {stmts : List ParsedStatement} (h : Builds st node)
    (hs : BuildsAll stmts nodes) : BuildsAll (st :: stmts) (node :: nodes) := by
  intro env
  rcases h env with ⟨env', h⟩
  rcases hs env' with ⟨env'', hs⟩
  exact ⟨env'', by rw [buildNodes, h]; show (do let r ← buildNodes env' stmts; _) = _; rw [hs]; rfl⟩

theorem reads_nodes (hws : Blank ws) (h : Spells (.node node) t) (ih : Reads t (.node node))
    (hs : Spells (.nodes nodes) us) (ihs : Reads us (.nodes nodes)) :
    Reads (ws ++ (t ++ us)) (.nodes (node :: nodes)) := by
  intro room offset fuel p rest hwf hfuel hp
  obtain ⟨fuel, rfl⟩ := Nat.exists_eq_add_one_of_ne_zero (Nat.ne_zero_of_lt hfuel)
  simp only [List.append_assoc] at hp
  have hp := hp.blank hws
  rcases h.scans_node (us ++ ch '}' :: rest) with ⟨tok, r, htok, hfirst⟩
  rcases hs.scans_nodes (.inr ⟨rest, rfl⟩) with ⟨tok', r', hnext, -⟩
  have hkind : p.cur.kind ≠ .kRBrace ∧ p.cur.kind ≠ .kEof ∧ p.cur.kind ≠ .kSemicolon := by
    rw [hp.cur_kind hfirst]
    revert htok
    cases tok.kind <;> decide
  rw [parseChildren]
  apply Settles.step (check_run _ p)
  simp only [hkind.1, decide_false, Bool.false_eq_true, if_false]
  apply Settles.step (check_run _ p)
  simp only [hkind.2.1, decide_false, Bool.false_eq_true, if_false]
  apply Settles.step (accept_of_ne hkind.2.2)
  simp only [Bool.false_eq_true, if_false]
  refine (ih room hwf.1 ⟨_, _, hnext⟩ hp).bind fun st q hq => ?_
  exact (ihs room offset fuel rest hwf.2 (by simpa using hfuel) hq.1).map fun stmts q' hq' =>
    ⟨hq'.1, buildsAll_cons hq.2 hq'.2⟩

end Statements

/-- Canonical text is read as what it stands for. -/
theorem Spells.reads {content : Content} {t : Bytes} (h : Spells content t) : Reads t content := by
  induction h with
  | null => exact reads_null
  | bool b => exact reads_bool b
  | nonneg h => exact reads_nonneg h
  | neg h => exact reads_neg h
  | str s => exact reads_str s
  | emptyArray => exact reads_emptyArray
  | array h ih => exact reads_array h ih
  | object h ih => exact reads_object h ih
  | last hws _ ih => exact reads_last hws ih
  | lastComma hws _ hus ih => exact reads_lastComma hws ih hus
  | element hws _ hs ih ihs => exact reads_element hws ih hs ihs
  | noFields hws => exact reads_noFields hws
  | field hws hkey h hs ih ihs => exact reads_field hws hkey h ih hs ihs
  | assignment hpath hnames h ih => exact reads_assignment hpath hnames h ih
  | block hname h ih => exact reads_block hname h ih
  | «include» path => exact reads_include path
  | noNodes hws => exact reads_noNodes hws
  | nodes hws h hs ih ihs => exact reads_nodes hws h ih hs ihs

/-! ### Documents -/

theorem settles_statements {nodes : List Node} :
    ∀ {t : Bytes} {p : Parser Lexer} (fuel : Nat), Spells (.nodes nodes) t →
      NodesWellFormed kMaxDepth nodes → nodes.length < fuel → p.At t →
      Settles (parseStatements fuel) p (NodesFit nodes) fun stmts _ => BuildsAll stmts nodes := by
  induction nodes with
  | nil =>
      intro t p fuel h hwf hfuel hp
      obtain ⟨fuel, rfl⟩ := Nat.exists_eq_add_one_of_ne_zero (Nat.ne_zero_of_lt hfuel)
      cases h with
      | noNodes hws =>
          rw [← List.append_nil t] at hp
          have hkind : p.cur.kind = .kEof := (hp.blank hws).cur_kind scans_eof
          have hrun : parseStatements (fuel + 1) p = .ok [] p := by
            simp [parseStatements, bind_run, hkind]
          exact (Settles.of_ok hrun fun env => ⟨env, rfl⟩).iff (by simp [NodesFit, AllNodes])
  | cons node nodes ih =>
      intro t p fuel h hwf hfuel hp
      obtain ⟨fuel, rfl⟩ := Nat.exists_eq_add_one_of_ne_zero (Nat.ne_zero_of_lt hfuel)
      cases h with
      | @nodes _ _ ws t us hws h hs =>
          have hp := hp.blank hws
          rcases h.scans_node us with ⟨tok, r, htok, hfirst⟩
          rcases hs.scans_nodes (.inl rfl) with ⟨tok', r', hnext, -⟩
          rw [List.append_nil] at hnext
          have hkind : p.cur.kind ≠ .kEof ∧ p.cur.kind ≠ .kSemicolon := by
            rw [hp.cur_kind hfirst]
            revert htok
            cases tok.kind <;> decide
          rw [parseStatements]
          apply Settles.step (check_run _ p)
          simp only [hkind.1, decide_false, Bool.false_eq_true, if_false]
          apply Settles.step (accept_of_ne hkind.2)
          simp only [Bool.false_eq_true, if_false]
          refine (h.reads kMaxDepth hwf.1 ⟨_, _, hnext⟩ hp).bind fun st q hq => ?_
          exact (ih fuel hs hwf.2 (by simpa using hfuel) hq.1).map fun stmts _ hstmts =>
            buildsAll_cons hq.2 hstmts

theorem parseSource_ok {data : Bytes} {p q : Parser Lexer} {stmts : List ParsedStatement}
    (hstart : Parser.start ({ rest := data } : Lexer) = .ok p) (h : parseDocument p = .ok stmts q) :
    parseSource data = .ok stmts := by
  simp [parseSource, hstart, h, bind, Except.bind, pure, Except.pure]

theorem parseSource_error {data : Bytes} {p q : Parser Lexer} {e : Fault}
    (hstart : Parser.start ({ rest := data } : Lexer) = .ok p) (h : parseDocument p = .error e q) :
    parseSource data = .error e := by
  simp [parseSource, hstart, h, bind, Except.bind, throw, throwThe, MonadExceptOf.throw]

/-- A canonical text parses to its document if the values in it fit, and to nothing otherwise. -/
theorem parse_text {nodes : List Node} {t : Bytes} (h : Spells (.nodes nodes) t)
    (hwf : NodesWellFormed kMaxDepth nodes) :
    (NodesFit nodes → parse t = .ok { nodes }) ∧ (¬ NodesFit nodes → ∃ e, parse t = .error e) := by
  rcases h.scans_nodes (.inl rfl) with ⟨tok, r, hscan, hcount⟩
  rw [List.append_nil] at hscan
  rcases hscan [] { rest := t } .nil rfl with ⟨offset, l, hnext, -⟩
  let p : Parser Lexer := { lexer := l, cur := { tok with offset } }
  have hstart : Parser.start ({ rest := t } : Lexer) = .ok p := by
    have hnext : TokenSource.next ({ rest := t } : Lexer) = .ok { tok with offset } l := hnext
    rw [Parser.start, hnext]
  have hp : p.At t := ⟨[], { rest := t }, .nil, rfl, hnext⟩
  have hfuel : nodes.length < p.fuel := hp.lt_fuel hscan hcount
  have hsettle := settles_statements p.fuel h hwf hfuel hp
  have hdocument : parseDocument p = parseStatements p.fuel p := by
    rw [parseDocument, bind_of_ok (get_run p)]
  constructor
  · intro hfits
    rcases hsettle.ok hfits with ⟨stmts, q, hrun, hbuilds⟩
    rcases hbuilds [[]] with ⟨env, hbuild⟩
    have hsource := parseSource_ok hstart (hdocument.trans hrun)
    rw [parse, hsource]
    show (do let r ← buildNodes [[]] stmts; _) = _
    rw [hbuild]
    rfl
  · intro hfits
    rcases hsettle.error hfits with ⟨e, q, hrun⟩
    exact ⟨e, by rw [parse, parseSource_error hstart (hdocument.trans hrun)]; rfl⟩

end Bytewright.Cfgscript
