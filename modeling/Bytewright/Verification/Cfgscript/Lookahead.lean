import Bytewright.Verification.Cfgscript.Spelling
import Bytewright.Verification.Cfgscript.TokenStream

/-! # What canonical text begins with -/

namespace Bytewright.Cfgscript

open Bytewright.Common Bytewright.Library

/-! ### A parser in front of text -/

/-- The lookahead of `p` was read from the begin of `text`. -/
def Parser.At (p : Parser Lexer) (text : Bytes) : Prop :=
  ∃ ws l, Blank ws ∧ l.rest = ws ++ text ∧ nextToken l = .ok p.cur p.lexer

/-- A token can be read from the begin of `text`. -/
def Ready (text : Bytes) : Prop := ∃ t rest, Scans text t rest

section At

variable {p : Parser Lexer} {ws text rest : Bytes} {t : Token} {kind : TokenKind} {what : String}
  {l : Lexer} {e : Fault}

theorem take_of_nextToken (h : nextToken p.lexer = .ok t l) :
    take p = .ok p.cur { lexer := l, cur := t } := by
  have h : TokenSource.next p.lexer = .ok t l := h
  simp [take, h]

theorem take_of_nextToken_error (h : nextToken p.lexer = .error e l) :
    take p = .error e { p with lexer := l } := by
  have h : TokenSource.next p.lexer = .error e l := h
  simp [take, h]

namespace Parser.At

theorem blank (h : p.At (ws ++ text)) (hws : Blank ws) : p.At text := by
  rcases h with ⟨us, l, hus, hl, hnext⟩
  exact ⟨us ++ ws, l, hus.append hws, by rw [hl, List.append_assoc], hnext⟩

theorem cur (h : p.At text) (hscan : Scans text t rest) :
    (∃ offset, p.cur = { t with offset }) ∧ p.lexer.rest = rest := by
  rcases h with ⟨ws, l, hws, hl, hnext⟩
  rcases hscan ws l hws hl with ⟨offset, l', hnext', hl'⟩
  rw [hnext] at hnext'
  injection hnext' with hcur hlexer
  exact ⟨⟨offset, hcur⟩, hlexer ▸ hl'⟩

theorem cur_kind (h : p.At text) (hscan : Scans text t rest) : p.cur.kind = t.kind := by
  rcases (h.cur hscan).1 with ⟨offset, hcur⟩
  rw [hcur]

theorem cur_text (h : p.At text) (hscan : Scans text t rest) : p.cur.text = t.text := by
  rcases (h.cur hscan).1 with ⟨offset, hcur⟩
  rw [hcur]

/-- Taking the first token leads in front of what is behind it. -/
theorem take (h : p.At text) (hscan : Scans text t rest) (hrest : Ready rest) :
    ∃ q, Cfgscript.take p = .ok p.cur q ∧ q.At rest := by
  rcases hrest with ⟨t', rest', hrest⟩
  have hlexer := (h.cur hscan).2
  rcases hrest [] p.lexer .nil hlexer with ⟨offset, l', hnext, -⟩
  exact ⟨_, take_of_nextToken hnext, [], p.lexer, .nil, hlexer, hnext⟩

theorem expect (h : p.At text) (hscan : Scans text t rest) (hrest : Ready rest)
    (hkind : t.kind = kind) (what : String) :
    ∃ q, Cfgscript.expect kind what p = .ok p.cur q ∧ q.At rest := by
  rcases h.take hscan hrest with ⟨q, htake, hq⟩
  exact ⟨q, (expect_of_eq ((h.cur_kind hscan).trans hkind) what).trans htake, hq⟩

/-- What is behind the first token cannot be read. -/
theorem take_error (h : p.At text) (hscan : Scans text t rest) (hrest : Unscannable rest) :
    ∃ e q, Cfgscript.take p = .error e q := by
  rcases hrest [] p.lexer .nil (h.cur hscan).2 with ⟨e, l', hnext⟩
  exact ⟨e, _, take_of_nextToken_error hnext⟩

/-- The loops of the parser may go around once for every byte behind the first token, and once more. -/
theorem lt_fuel (h : p.At text) (hscan : Scans text t rest) {n : Nat} (hn : n ≤ rest.length + 1) :
    n < p.fuel := by
  have hfuel : p.fuel = p.lexer.rest.length + 2 := rfl
  rw [hfuel, (h.cur hscan).2]
  omega

end Parser.At

end At

/-! ### What text begins with -/

theorem scans_follows {c : UInt8} (hc : c ∈ follows) (rest : Bytes) :
    ∃ kind, kind ∈ [TokenKind.kSemicolon, .kComma, .kRBracket] ∧ Scans (c :: rest) { kind } rest := by
  have hcases : c = ch ';' ∨ c = ch ',' ∨ c = ch ']' := by
    revert c
    decide +kernel
  rcases hcases with rfl | rfl | rfl
  · exact ⟨.kSemicolon, by decide, scans_punctuator (by decide) rfl⟩
  · exact ⟨.kComma, by decide, scans_punctuator (by decide) rfl⟩
  · exact ⟨.kRBracket, by decide, scans_punctuator (by decide) rfl⟩

theorem ready_follows {c : UInt8} (hc : c ∈ follows) (rest : Bytes) : Ready (c :: rest) := by
  rcases scans_follows hc rest with ⟨kind, -, hscan⟩
  exact ⟨_, _, hscan⟩

theorem scans_keyword {s : String} {kind : TokenKind} (hword : IsWord (ascii s))
    (hkind : keyword? (ascii s) = some kind) {c : UInt8} (hc : isIdentPart c = false) (rest : Bytes) :
    Scans (ascii s ++ c :: rest) { kind, text := ascii s } (c :: rest) := by
  have hstops : Stops isIdentPart (c :: rest) := by simpa [Stops] using hc
  have hscan := scans_word hword hstops
  rwa [hkind] at hscan

theorem follows_class : ∀ c ∈ follows, isIdentPart c = false := by decide +kernel

theorem isWord_ascii {s : String} (h : (ascii s).all isIdentPart = true)
    (hstart : (ascii s).head?.any isIdentStart = true) : IsWord (ascii s) where
  start := by
    cases hs : ascii s with
    | nil =>
        rw [hs] at hstart
        cases hstart
    | cons c cs =>
        rw [hs] at hstart
        exact ⟨c, cs, rfl, hstart⟩
  part := List.all_eq_true.mp h

section Words

variable {c : UInt8} {rest : Bytes}

theorem scans_null (hc : isIdentPart c = false) :
    Scans (ascii "null" ++ c :: rest) { kind := .kNull, text := ascii "null" } (c :: rest) :=
  scans_keyword (isWord_ascii (by decide) (by decide)) (by decide) hc rest

theorem scans_bool (b : Bool) (hc : isIdentPart c = false) :
    Scans (ascii (if b then "true" else "false") ++ c :: rest)
      { kind := if b then .kTrue else .kFalse, text := ascii (if b then "true" else "false") }
      (c :: rest) := by
  cases b with
  | false => exact scans_keyword (isWord_ascii (by decide) (by decide)) (by decide) hc rest
  | true => exact scans_keyword (isWord_ascii (by decide) (by decide)) (by decide) hc rest

theorem scans_include (hc : isIdentPart c = false) :
    Scans (ascii "include" ++ c :: rest) { kind := .kInclude, text := ascii "include" } (c :: rest) :=
  scans_keyword (isWord_ascii (by decide) (by decide)) (by decide) hc rest

end Words

/-! ### Integers by their digits -/

theorem toNat_lt (i : Int64) : i.toInt.toNat < 2 ^ 63 := by
  have := i.toInt_lt
  omega

theorem ofNat_toNat {i : Int64} (h : ¬ i < 0) : Int64.ofNat i.toInt.toNat = i := by
  rw [Int64.lt_iff_toInt_lt, Int64.toInt_zero] at h
  rw [← Int64.toInt_inj, Int64.toInt_ofNat_of_lt (toNat_lt i)]
  omega

/-- Only the least integer has a magnitude that is out of range. -/
theorem natAbs_lt {i : Int64} (h : i < 0) : i.toInt.natAbs < 2 ^ 63 ↔ i ≠ kInt64Min := by
  have hle := i.le_toInt
  have hmin : kInt64Min.toInt = -9223372036854775808 := by decide
  rw [Int64.lt_iff_toInt_lt, Int64.toInt_zero] at h
  rw [Ne, ← Int64.toInt_inj, hmin]
  omega

theorem neg_ofNat_natAbs {i : Int64} (h : i < 0) : -Int64.ofNat i.toInt.natAbs = i := by
  have hle := i.le_toInt
  rw [Int64.lt_iff_toInt_lt, Int64.toInt_zero] at h
  rw [← Int64.toInt_inj, Int64.toInt_neg_ofNat_of_le (by omega)]
  omega

/-! ### First tokens -/

/-- The first token of a value; the bracket that closes an array is none. -/
theorem Spells.scans_value {v : Value} {t : Bytes} (h : Spells (.value v) t) {c : UInt8}
    (hc : c ∈ follows) (rest : Bytes) :
    ∃ tok r, tok.kind ≠ .kRBracket ∧ Scans (t ++ c :: rest) tok (r ++ c :: rest) := by
  have hpart := follows_class c hc
  cases h with
  | null => exact ⟨_, [], by decide, scans_null hpart⟩
  | bool b => exact ⟨_, [], by cases b <;> decide, scans_bool b hpart⟩
  | @nonneg i h => exact ⟨_, [], by simp, scans_decimal rest hc (toNat_lt i)⟩
  | neg h => exact ⟨_, _, by decide, scans_punctuator (by decide) rfl⟩
  | str s => exact ⟨_, [], by simp, scans_quoted s _⟩
  | emptyArray => exact ⟨_, [ch ']'], by decide, scans_punctuator (by decide) rfl⟩
  | @array vs t h =>
      exact ⟨{ kind := .kLBracket }, t ++ [ch ']'], by decide, scans_punctuator (by decide) rfl⟩
  | @object fields t h =>
      exact ⟨{ kind := .kLBrace }, t ++ [ch '}'], by decide, scans_punctuator (by decide) rfl⟩

/-- How many members a piece of text lists. -/
def Content.count : Content → Nat
  | .value _ | .node _ => 1
  | .elements vs => vs.length
  | .fields members => members.length
  | .nodes members => members.length

theorem Spells.count_le {content : Content} {t : Bytes} (h : Spells content t) :
    content.count ≤ t.length := by
  induction h with
  | null => decide
  | bool b => cases b <;> decide
  | nonneg => exact List.length_pos_iff.mpr (decimal_ne_nil _)
  | neg | array | object => simp [Content.count]
  | str s => simp [Content.count, quoted, ascii]
  | emptyArray => decide
  | last _ _ ih | lastComma _ _ _ ih =>
      simp only [Content.count, List.length_append, List.length_cons, List.length_nil] at ih ⊢
      omega
  | element _ _ _ ih ihs =>
      simp only [Content.count, List.length_append, List.length_cons] at ih ihs ⊢
      omega
  | noFields | noNodes => exact Nat.zero_le _
  | field _ _ _ _ _ ihs =>
      simp only [Content.count, List.length_append, List.length_cons] at ihs ⊢
      omega
  | assignment | block | «include» => simp [Content.count]; omega
  | nodes _ _ _ ih ihs =>
      simp only [Content.count, List.length_append, List.length_cons] at ih ihs ⊢
      omega

/-- The first token of the elements of an array. More bytes than elements are behind it. -/
theorem Spells.scans_elements {vs : List Value} {t : Bytes} (h : Spells (.elements vs) t)
    (rest : Bytes) :
    ∃ tok r, tok.kind ≠ .kRBracket ∧ Scans (t ++ ch ']' :: rest) tok r ∧ vs.length ≤ r.length := by
  cases h with
  | last hws h =>
      rcases h.scans_value (c := ch ']') (by decide) rest with ⟨tok, r, htok, hscan⟩
      rw [List.append_assoc]
      exact ⟨tok, _, htok, hscan.blank hws, by simp; omega⟩
  | @lastComma v ws t us hws h hus =>
      rcases h.scans_value (c := ch ',') (by decide) (us ++ ch ']' :: rest) with ⟨tok, r, htok, hscan⟩
      simp only [List.append_assoc, List.cons_append]
      exact ⟨tok, _, htok, hscan.blank hws, by simp; omega⟩
  | @element v vs ws t us hws h hs =>
      rcases h.scans_value (c := ch ',') (by decide) (us ++ ch ']' :: rest) with ⟨tok, r, htok, hscan⟩
      have hcount : vs.length ≤ us.length := hs.count_le
      simp only [List.append_assoc, List.cons_append]
      exact ⟨tok, _, htok, hscan.blank hws, by simp; omega⟩

/-- The first token of the members of an object. -/
theorem Spells.scans_fields {fields : List (Bytes × Value)} {t : Bytes} (h : Spells (.fields fields) t)
    (rest : Bytes) : ∃ tok r, Scans (t ++ ch '}' :: rest) tok r ∧ fields.length ≤ r.length := by
  cases h with
  | noFields hws =>
      exact ⟨{ kind := .kRBrace }, rest, (scans_punctuator (by decide) rfl).blank hws, by simp⟩
  | @field key v fields ws t us hws hkey h hs =>
      have hcount : fields.length ≤ us.length := hs.count_le
      simp only [List.append_assoc, List.cons_append]
      exact ⟨_, _, (scans_name hkey (by simp [Stops, ascii]; decide)).blank hws, by simp; omega⟩

/-- The components of a path behind its first. -/
def dotted (path : List Bytes) : Bytes := path.flatMap fun part => ascii "." ++ part

theorem stops_space (text : Bytes) : Stops isIdentPart (ch ' ' :: text) := by
  simp [Stops]
  decide

theorem stops_dotted (path : List Bytes) (text : Bytes) :
    Stops isIdentPart (dotted path ++ (ascii " = " ++ text)) := by
  cases path with
  | nil => exact stops_space _
  | cons name path =>
      simp [Stops, dotted, ascii]
      decide

theorem stops_label (label : Option Bytes) (text : Bytes) :
    Stops isIdentPart (renderLabel label ++ (ascii " \x7b" ++ text)) := by
  cases label with
  | none => exact stops_space _
  | some label =>
      rw [renderLabel, List.append_assoc]
      exact stops_space _

theorem scans_assign (text : Bytes) :
    Scans (ascii " = " ++ text) { kind := .kAssign } (ascii " " ++ text) := by
  have h : Scans (ch '=' :: (ascii " " ++ text)) { kind := .kAssign } (ascii " " ++ text) :=
    scans_punctuator (by decide) rfl
  exact h.blank blank_space

/-- The first token of a statement. -/
theorem Spells.scans_node {node : Node} {t : Bytes} (h : Spells (.node node) t) (rest : Bytes) :
    ∃ tok r, tok.kind ∈ [TokenKind.kIdent, .kInclude] ∧ Scans (t ++ rest) tok (r ++ rest) := by
  cases h with
  | @assignment path v t hpath hnames h =>
      cases path with
      | nil => exact absurd rfl hpath
      | cons name path =>
          have hname := hnames name (List.mem_cons_self ..)
          have hscan := scans_name hname (stops_dotted path (t ++ [ch ';'] ++ rest))
          refine ⟨{ kind := .kIdent, text := name }, dotted path ++ (ascii " = " ++ (t ++ [ch ';'])),
            by simp, ?_⟩
          simpa [renderPath, dotted] using hscan
  | @block name label nodes t hname h =>
      have hscan := scans_name hname (stops_label label (t ++ [ch '}'] ++ rest))
      refine ⟨{ kind := .kIdent, text := name },
        renderLabel label ++ (ascii " \x7b" ++ (t ++ [ch '}'])), by simp, ?_⟩
      simpa using hscan
  | «include» path =>
      have hspace : isIdentPart (ch ' ') = false := by decide
      refine ⟨{ kind := .kInclude, text := ascii "include" }, ascii " " ++ (quoted path ++ [ch ';']),
        by simp, ?_⟩
      simpa [ascii, ch, Char.toUInt8] using scans_include hspace

/-- What is behind the statements of a block or of a document. -/
def Closes (rest : Bytes) : Prop := rest = [] ∨ ∃ text, rest = ch '}' :: text

theorem Closes.ready {rest : Bytes} (h : Closes rest) : Ready rest := by
  rcases h with rfl | ⟨text, rfl⟩
  · exact ⟨_, _, scans_eof⟩
  · exact ⟨{ kind := .kRBrace }, text, scans_punctuator (by decide) rfl⟩

theorem Spells.scans_nodes {nodes : List Node} {t : Bytes} (h : Spells (.nodes nodes) t)
    {rest : Bytes} (hrest : Closes rest) :
    ∃ tok r, Scans (t ++ rest) tok r ∧ nodes.length ≤ r.length + 1 := by
  cases h with
  | noNodes hws =>
      rcases hrest.ready with ⟨tok, r, hscan⟩
      exact ⟨tok, r, hscan.blank hws, by simp⟩
  | @nodes node nodes ws t us hws h hs =>
      rcases h.scans_node (us ++ rest) with ⟨tok, r, -, hscan⟩
      have hcount : nodes.length ≤ us.length := hs.count_le
      simp only [List.append_assoc]
      exact ⟨tok, _, hscan.blank hws, by simp; omega⟩

end Bytewright.Cfgscript
