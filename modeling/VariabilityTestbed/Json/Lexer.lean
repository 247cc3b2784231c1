import Mathlib.Algebra.Ring.Int.Defs
import Mathlib.Algebra.Ring.Nat

/-!
# The JSON lexer and the message streamer

`json-lexer.c` splits a stream of bytes into tokens with one table, and `json-streamer.c` collects
the tokens of a message by counting braces and brackets. A message is handed on as its list of
tokens; an error hands on `NULL` in its place.

The table sends a byte that no rule allows to `IN_ERROR`. A rule that ends at a byte which belongs
to the next token (`TERMINAL`) covers the bytes up to `0x7F` only, so a byte above `0xF4` is an
error in every state. The error resets the lexer and the streamer, which is what the guest agent
relies on when it sends `0xFF` in front of a message. All that is left of the bytes before is the
position (`x`, `y`).

The lexer calls `emit` for each token. Here it returns the tokens, and the streamer takes them in
turn.
-/

namespace VariabilityTestbed.Json

open List

/-! ### The table -/

/-- `enum json_lexer_state` and `JSONTokenType`, which share one numbering: the table leads from a
state to a state or to the type of a token. -/
inductive LexerState where
  | inError | inDqUcode3 | inDqUcode2 | inDqUcode1 | inDqUcode0 | inDqStringEscape | inDqString
  | inSqUcode3 | inSqUcode2 | inSqUcode1 | inSqUcode0 | inSqStringEscape | inSqString | inZero
  | inDigits | inDigit | inExpE | inMantissa | inMantissaDigits | inNonzeroNumber
  | inNegNonzeroNumber | inKeyword | inEscape | inEscapeL | inEscapeLL | inEscapeI | inEscapeI6
  | inEscapeI64 | inWhitespace | inStart | jsonOperator | jsonInteger | jsonFloat | jsonKeyword
  | jsonString | jsonEscape | jsonSkip | jsonError
  deriving DecidableEq

/-- The byte of an ASCII character. -/
def chr (c : Char) : UInt8 := UInt8.ofNat c.toNat

/-- `['0' ... '9']`. -/
def isDigit (ch : UInt8) : Bool := chr '0' ≤ ch && ch ≤ chr '9'

/-- `['0' ... '9']`, `['a' ... 'f']` and `['A' ... 'F']`. -/
def isXDigit (ch : UInt8) : Bool :=
  isDigit ch || (chr 'a' ≤ ch && ch ≤ chr 'f') || (chr 'A' ≤ ch && ch ≤ chr 'F')

/-- `['a' ... 'z']`. -/
def isLower (ch : UInt8) : Bool := chr 'a' ≤ ch && ch ≤ chr 'z'

/-- The four bytes of white space. -/
def isSpace (ch : UInt8) : Bool :=
  ch == chr ' ' || ch == chr '\t' || ch == chr '\r' || ch == chr '\n'

/-- `[1 ... 0xBF]` and `[0xC2 ... 0xF4]`. -/
def isStringByte (ch : UInt8) : Bool := (1 ≤ ch && ch ≤ 0xBF) || (0xC2 ≤ ch && ch ≤ 0xF4)

/-- `TERMINAL`. -/
def terminal (state : LexerState) (ch : UInt8) : LexerState :=
  if ch ≤ 0x7F then state else .inError

/-- A rule for hexadecimal digits. -/
def hexTo (state : LexerState) (ch : UInt8) : LexerState := if isXDigit ch then state else .inError

open LexerState in
/-- `json_lexer`. A later entry of a row overrides an earlier one. -/
def jsonLexer : LexerState → UInt8 → LexerState
  | inDqUcode3, ch => hexTo inDqString ch
  | inDqUcode2, ch => hexTo inDqUcode3 ch
  | inDqUcode1, ch => hexTo inDqUcode2 ch
  | inDqUcode0, ch => hexTo inDqUcode1 ch
  | inDqStringEscape, ch =>
    if ch == chr 'b' || ch == chr 'f' || ch == chr 'n' || ch == chr 'r' || ch == chr 't' ||
        ch == chr '/' || ch == chr '\x5c' || ch == chr '\x27' || ch == chr '\x22' then inDqString
    else if ch == chr 'u' then inDqUcode0
    else inError
  | inDqString, ch =>
    if ch == chr '\x5c' then inDqStringEscape
    else if ch == chr '\x22' then jsonString
    else if isStringByte ch then inDqString
    else inError
  | inSqUcode3, ch => hexTo inSqString ch
  | inSqUcode2, ch => hexTo inSqUcode3 ch
  | inSqUcode1, ch => hexTo inSqUcode2 ch
  | inSqUcode0, ch => hexTo inSqUcode1 ch
  | inSqStringEscape, ch =>
    if ch == chr 'b' || ch == chr 'f' || ch == chr 'n' || ch == chr 'r' || ch == chr 't' ||
        ch == chr '\x27' || ch == chr '\x22' then inSqString
    -- the source leads to the double quoted string here
    else if ch == chr '/' || ch == chr '\x5c' then inDqString
    else if ch == chr 'u' then inSqUcode0
    else inError
  | inSqString, ch =>
    if ch == chr '\x5c' then inSqStringEscape
    else if ch == chr '\x27' then jsonString
    else if isStringByte ch then inSqString
    else inError
  | inZero, ch =>
    if isDigit ch then inError
    else if ch == chr '.' then inMantissa
    else terminal jsonInteger ch
  | inDigits, ch => if isDigit ch then inDigits else terminal jsonFloat ch
  | inDigit, ch => if isDigit ch then inDigits else inError
  | inExpE, ch =>
    if ch == chr '-' || ch == chr '+' then inDigit
    else if isDigit ch then inDigits
    else inError
  | inMantissaDigits, ch =>
    if isDigit ch then inMantissaDigits
    else if ch == chr 'e' || ch == chr 'E' then inExpE
    else terminal jsonFloat ch
  | inMantissa, ch => if isDigit ch then inMantissaDigits else inError
  | inNonzeroNumber, ch =>
    if isDigit ch then inNonzeroNumber
    else if ch == chr 'e' || ch == chr 'E' then inExpE
    else if ch == chr '.' then inMantissa
    else terminal jsonInteger ch
  | inNegNonzeroNumber, ch =>
    if ch == chr '0' then inZero
    else if isDigit ch then inNonzeroNumber
    else inError
  | inKeyword, ch => if isLower ch then inKeyword else terminal jsonKeyword ch
  | inWhitespace, ch => if isSpace ch then inWhitespace else terminal jsonSkip ch
  | inEscapeLL, ch => if ch == chr 'd' then jsonEscape else inError
  | inEscapeL, ch =>
    if ch == chr 'd' then jsonEscape
    else if ch == chr 'l' then inEscapeLL
    else inError
  | inEscapeI64, ch => if ch == chr 'd' then jsonEscape else inError
  | inEscapeI6, ch => if ch == chr '4' then inEscapeI64 else inError
  | inEscapeI, ch => if ch == chr '6' then inEscapeI6 else inError
  | inEscape, ch =>
    if ch == chr 'd' || ch == chr 'i' || ch == chr 'p' || ch == chr 's' || ch == chr 'f' then
      jsonEscape
    else if ch == chr 'l' then inEscapeL
    else if ch == chr 'I' then inEscapeI
    else inError
  | inStart, ch =>
    if ch == chr '\x22' then inDqString
    else if ch == chr '\x27' then inSqString
    else if ch == chr '0' then inZero
    else if isDigit ch then inNonzeroNumber
    else if ch == chr '-' then inNegNonzeroNumber
    else if ch == chr '\x7b' || ch == chr '\x7d' || ch == chr '[' || ch == chr ']' ||
        ch == chr ',' || ch == chr ':' then jsonOperator
    else if isLower ch then inKeyword
    else if ch == chr '%' then inEscape
    else if isSpace ch then inWhitespace
    else inError
  | _, _ => inError

/-! ### The lexer -/

/-- `MAX_TOKEN_SIZE`. -/
def maxTokenSize : ℕ := 64 * 2 ^ 20

/-- `JSONLexer`. -/
structure Lexer where
  state : LexerState
  token : List UInt8
  x : ℤ
  y : ℤ
  deriving DecidableEq

/-- The dictionary that stands for a token. -/
structure Token where
  type : LexerState
  token : List UInt8
  x : ℤ
  y : ℤ
  deriving DecidableEq

/-- `json_lexer_init`. -/
def jsonLexerInit : Lexer := ⟨.inStart, [], 0, 0⟩

/-- Begin a new token. -/
def Lexer.restart (l : Lexer) : Lexer := { l with state := .inStart, token := [] }

/-- `TERMINAL_NEEDED_LOOKAHEAD`. -/
def terminalNeededLookahead (old terminal : LexerState) : Bool := jsonLexer old 0 == terminal

/-- The `switch` over the new state, for a token with the text `token`. -/
def lexerSwitch (l : Lexer) (token : List UInt8) : LexerState → Lexer × List Token
  | .jsonOperator => (l.restart, [⟨.jsonOperator, token, l.x, l.y⟩])
  | .jsonEscape => (l.restart, [⟨.jsonEscape, token, l.x, l.y⟩])
  | .jsonInteger => (l.restart, [⟨.jsonInteger, token, l.x, l.y⟩])
  | .jsonFloat => (l.restart, [⟨.jsonFloat, token, l.x, l.y⟩])
  | .jsonKeyword => (l.restart, [⟨.jsonKeyword, token, l.x, l.y⟩])
  | .jsonString => (l.restart, [⟨.jsonString, token, l.x, l.y⟩])
  | .jsonSkip => (l.restart, [])
  | .inError => (l.restart, [⟨.jsonError, token, l.x, l.y⟩])
  | state => ({ l with state := state, token := token }, [])

/-- A token that has grown too long is emitted with the state as its type. -/
def limitToken (l : Lexer) : Lexer × List Token :=
  if maxTokenSize < l.token.length then (l.restart, [⟨l.state, l.token, l.x, l.y⟩]) else (l, [])

/-- The loop of `json_lexer_feed_char`. -/
def feedLoop : ℕ → Lexer → UInt8 → Bool → Lexer × List Token
  | 0, l, _, _ => (l, [])
  | rounds + 1, l, ch, flush =>
    let newState := jsonLexer l.state ch
    let charConsumed := !terminalNeededLookahead l.state newState
    let token := if charConsumed then l.token ++ [ch] else l.token
    let (l', ts) := lexerSwitch l token newState
    if newState = .inError then (l', ts)
    else
      let (l'', ts') :=
        if !charConsumed && !flush then feedLoop rounds l' ch flush else limitToken l'
      (l'', ts ++ ts')

/-- `json_lexer_feed_char`. The second round starts at `IN_START` and is the last
(`feedLoop_rounds`). -/
def jsonLexerFeedChar (l : Lexer) (ch : UInt8) (flush : Bool) : Lexer × List Token :=
  let l := if ch = chr '\n' then { l with x := 0, y := l.y + 1 } else { l with x := l.x + 1 }
  feedLoop 2 l ch flush

/-! ### The streamer -/

/-- `MAX_NESTING`. -/
def maxNesting : ℤ := 2 ^ 10

/-- `JSONMessageParser`, with the messages that it has emitted. -/
structure MessageParser where
  lexer : Lexer
  braceCount : ℤ
  bracketCount : ℤ
  tokens : List Token
  tokenSize : ℕ
  emitted : List (Option (List Token))
  deriving DecidableEq

/-- `json_message_parser_init`. -/
def jsonMessageParserInit : MessageParser := ⟨jsonLexerInit, 0, 0, [], 0, []⟩

/-- `out_emit`. -/
def MessageParser.emit (p : MessageParser) (tokens : Option (List Token)) : MessageParser :=
  { p with
    braceCount := 0
    bracketCount := 0
    tokens := []
    tokenSize := 0
    emitted := p.emitted ++ [tokens] }

/-- What a token adds to `brace_count`. -/
def Token.braces (t : Token) : ℤ :=
  if t.type ≠ .jsonOperator then 0
  else if t.token.head? = some (chr '\x7b') then 1
  else if t.token.head? = some (chr '\x7d') then -1
  else 0

/-- What a token adds to `bracket_count`. -/
def Token.brackets (t : Token) : ℤ :=
  if t.type ≠ .jsonOperator then 0
  else if t.token.head? = some (chr '[') then 1
  else if t.token.head? = some (chr ']') then -1
  else 0

/-- The counters and the list of tokens, with one more token. -/
def MessageParser.add (p : MessageParser) (t : Token) : MessageParser :=
  { p with
    braceCount := p.braceCount + t.braces
    bracketCount := p.bracketCount + t.brackets
    tokens := p.tokens ++ [t]
    tokenSize := p.tokenSize + t.token.length }

/-- `json_message_process_token`. -/
def processToken (p : MessageParser) (t : Token) : MessageParser :=
  let p := p.add t
  if t.type = .jsonError then p.emit none
  else if p.braceCount < 0 ∨ p.bracketCount < 0 ∨ (p.braceCount = 0 ∧ p.bracketCount = 0) then
    p.emit (some p.tokens)
  else if maxTokenSize < p.tokenSize ∨ maxNesting < p.bracketCount ∨ maxNesting < p.braceCount then
    p.emit (some p.tokens)
  else p

/-- Hand the tokens of the lexer to the streamer. -/
def MessageParser.took (p : MessageParser) (r : Lexer × List Token) : MessageParser :=
  r.2.foldl processToken { p with lexer := r.1 }

/-- One byte of `json_message_parser_feed`. -/
def feedByte (p : MessageParser) (ch : UInt8) : MessageParser :=
  p.took (jsonLexerFeedChar p.lexer ch false)

/-- `json_message_parser_feed`. -/
def jsonMessageParserFeed (p : MessageParser) (buffer : List UInt8) : MessageParser :=
  buffer.foldl feedByte p

/-! ### Positions do not matter -/

/-- The type and the text of a token. -/
def Token.content (t : Token) : LexerState × List UInt8 := (t.type, t.token)

/-- The messages so far, without positions. -/
def MessageParser.messages (p : MessageParser) : List (Option (List (LexerState × List UInt8))) :=
  p.emitted.map (Option.map (List.map Token.content))

/-- The lexers are alike but for their positions. -/
def Lexer.Alike (l k : Lexer) : Prop := k.state = l.state ∧ k.token = l.token

/-- The lexers are alike after the step, and so are the tokens. -/
def AlikeOut (r s : Lexer × List Token) : Prop :=
  r.1.Alike s.1 ∧ s.2.map Token.content = r.2.map Token.content

theorem lexerSwitch_alike (l k : Lexer) (token : List UInt8) (s : LexerState) :
    AlikeOut (lexerSwitch l token s) (lexerSwitch k token s) := by
  cases s <;> exact ⟨⟨rfl, rfl⟩, rfl⟩

theorem Lexer.Alike.limitToken {l k : Lexer} (h : l.Alike k) :
    AlikeOut (limitToken l) (Json.limitToken k) := by
  rw [Json.limitToken, Json.limitToken, h.2]
  split
  · exact ⟨⟨rfl, rfl⟩, by simp [Token.content, h.1]⟩
  · exact ⟨h, rfl⟩

theorem Lexer.Alike.feedLoop {l k : Lexer} (h : l.Alike k) (n : ℕ) (ch : UInt8) (flush : Bool) :
    AlikeOut (feedLoop n l ch flush) (Json.feedLoop n k ch flush) := by
  induction n generalizing l k with
  | zero => exact ⟨h, rfl⟩
  | succ n ih =>
    simp only [Json.feedLoop, h.1, h.2]
    obtain ⟨hl, hts⟩ := lexerSwitch_alike l k
      (if (!terminalNeededLookahead l.state (jsonLexer l.state ch)) = true then l.token ++ [ch]
        else l.token) (jsonLexer l.state ch)
    split
    · exact ⟨hl, hts⟩
    · split
      · obtain ⟨hl', hts'⟩ := ih hl
        exact ⟨hl', by simp only [map_append, hts, hts']⟩
      · obtain ⟨hl', hts'⟩ := hl.limitToken
        exact ⟨hl', by simp only [map_append, hts, hts']⟩

theorem Lexer.Alike.feedChar {l k : Lexer} (h : l.Alike k) (ch : UInt8) (flush : Bool) :
    AlikeOut (jsonLexerFeedChar l ch flush) (jsonLexerFeedChar k ch flush) := by
  rw [jsonLexerFeedChar, jsonLexerFeedChar]
  split
  · have hmoved : Lexer.Alike { l with x := 0, y := l.y + 1 } { k with x := 0, y := k.y + 1 } := h
    exact hmoved.feedLoop 2 ch flush
  · have hmoved : Lexer.Alike { l with x := l.x + 1 } { k with x := k.x + 1 } := h
    exact hmoved.feedLoop 2 ch flush

/-- `q` is like `p`, but it has emitted `before` first. -/
structure Follows (before : List (Option (List (LexerState × List UInt8)))) (p q : MessageParser) :
    Prop where
  lexer : p.lexer.Alike q.lexer
  braceCount : q.braceCount = p.braceCount
  bracketCount : q.bracketCount = p.bracketCount
  tokens : q.tokens.map Token.content = p.tokens.map Token.content
  tokenSize : q.tokenSize = p.tokenSize
  messages : q.messages = before ++ p.messages

variable {before : List (Option (List (LexerState × List UInt8)))}

section

variable {p q : MessageParser} (h : Follows before p q)
include h

theorem Follows.emit {m n : Option (List Token)}
    (hm : n.map (map Token.content) = m.map (map Token.content)) :
    Follows before (p.emit m) (q.emit n) where
  lexer := h.lexer
  braceCount := rfl
  bracketCount := rfl
  tokens := rfl
  tokenSize := rfl
  messages := by
    have hmessages := h.messages
    simp only [MessageParser.messages] at hmessages
    simp [MessageParser.messages, MessageParser.emit, hmessages, hm]

theorem Follows.add {t u : Token} (ht : u.content = t.content) :
    Follows before (p.add t) (q.add u) := by
  obtain ⟨htype, htext⟩ := Prod.mk.inj ht
  refine ⟨h.lexer, ?_, ?_, ?_, ?_, h.messages⟩
  · simp [MessageParser.add, Token.braces, h.braceCount, htype, htext]
  · simp [MessageParser.add, Token.brackets, h.bracketCount, htype, htext]
  · simp [MessageParser.add, h.tokens, ht]
  · simp [MessageParser.add, h.tokenSize, htext]

theorem Follows.processToken {t u : Token} (ht : u.content = t.content) :
    Follows before (processToken p t) (Json.processToken q u) := by
  have hadd := h.add ht
  have htype : u.type = t.type := congrArg Prod.fst ht
  have htokens : (some (q.add u).tokens).map (map Token.content) =
      (some (p.add t).tokens).map (map Token.content) := congrArg some hadd.tokens
  simp only [Json.processToken, htype, hadd.braceCount, hadd.bracketCount, hadd.tokenSize]
  split_ifs
  · exact hadd.emit rfl
  · exact hadd.emit htokens
  · exact hadd.emit htokens
  · exact hadd

end

theorem Follows.foldl {ts us : List Token} (hts : us.map Token.content = ts.map Token.content)
    {p q : MessageParser} (h : Follows before p q) :
    Follows before (ts.foldl Json.processToken p) (us.foldl Json.processToken q) := by
  induction ts generalizing us p q with
  | nil =>
    obtain rfl := map_eq_nil_iff.mp hts
    exact h
  | cons t ts ih =>
    obtain ⟨u, us, rfl, hu, hus⟩ := map_eq_cons_iff.mp hts
    exact ih hus (h.processToken hu)

theorem Follows.feedByte {p q : MessageParser} (h : Follows before p q) (ch : UInt8) :
    Follows before (feedByte p ch) (Json.feedByte q ch) := by
  obtain ⟨hlexer, hts⟩ := h.lexer.feedChar ch false
  exact Follows.foldl hts { h with lexer := hlexer }

theorem Follows.feed {p q : MessageParser} (h : Follows before p q) (buffer : List UInt8) :
    Follows before (jsonMessageParserFeed p buffer) (jsonMessageParserFeed q buffer) := by
  induction buffer generalizing p q with
  | nil => exact h
  | cons ch buffer ih => exact ih (h.feedByte ch)

/-! ### The byte `0xFF` -/

/-- No rule allows `0xFF`. -/
theorem jsonLexer_ff (s : LexerState) : jsonLexer s 0xFF = .inError := by cases s <;> rfl

/-- The lexer reports an error at `0xFF`, and starts again. -/
theorem jsonLexerFeedChar_ff (l : Lexer) :
    ∃ token x y, jsonLexerFeedChar l 0xFF false =
      (⟨.inStart, [], x, y⟩, [⟨.jsonError, token, x, y⟩]) := by
  rw [jsonLexerFeedChar, if_neg (by decide), feedLoop.eq_def]
  simp only [jsonLexer_ff, if_true]
  exact ⟨_, _, _, rfl⟩

/-- After `0xFF` the parser is a new one that has emitted an error. -/
theorem feedByte_ff (p : MessageParser) :
    Follows (p.messages ++ [none]) jsonMessageParserInit (feedByte p 0xFF) := by
  obtain ⟨token, x, y, heq⟩ := jsonLexerFeedChar_ff p.lexer
  rw [feedByte, heq]
  refine ⟨⟨rfl, rfl⟩, rfl, rfl, rfl, rfl, ?_⟩
  simp [MessageParser.took, processToken, MessageParser.messages, MessageParser.emit,
    MessageParser.add, jsonMessageParserInit]

/-- **The stream parser resynchronises.** Whatever it was fed before, after the byte `0xFF` it emits
an error and then the messages of a new parser. -/
theorem resynchronised (p m : List UInt8) :
    (jsonMessageParserFeed jsonMessageParserInit (p ++ 0xFF :: m)).messages =
      (jsonMessageParserFeed jsonMessageParserInit p).messages ++
        none :: (jsonMessageParserFeed jsonMessageParserInit m).messages := by
  have hfeed := ((feedByte_ff (jsonMessageParserFeed jsonMessageParserInit p)).feed m).messages
  rw [append_assoc, singleton_append] at hfeed
  rw [← hfeed]
  simp only [jsonMessageParserFeed, foldl_append, foldl_cons]

end VariabilityTestbed.Json
