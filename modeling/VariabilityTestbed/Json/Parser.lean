import Mathlib.Algebra.Order.Ring.Int
import VariabilityTestbed.Json.Lexer
import VariabilityTestbed.QDict

/-!
# The JSON parser

`json-parser.c` turns the tokens of a message into a value by recursive descent. Each rule works on
a copy of the token list; if it succeeds, the copy replaces the list of its caller. An escape such
as `%d` takes its value from the `va_list`, if there is one.

A value is here what `QObject` is elsewhere, but a string is a list of bytes: nothing checks that it
is UTF-8. The texts of tokens are C strings, without the `NUL`.

Where the source has no defined result (`va_arg` of another type, or past the last argument; the
text of a string token that lacks even its quote), the result is `none`. A rule that fails returns
`NULL`, which is `some (none, _)`.
-/

namespace VariabilityTestbed.Json

/-! ### Values -/

/-- A `QObject`. Of a `QBool` only its truth is kept, of a `QFloat` the bits of its `double`. -/
inductive Value where
  | qint (value : Int64)
  | qstring (string : List UInt8)
  | qdict (entries : List (List UInt8 × Value))
  | qlist (elems : List Value)
  | qfloat (bits : UInt64)
  | qbool (value : Bool)

/-- The entries of a dictionary, in iteration order. -/
abbrev Dict : Type := List (List UInt8 × Value)

/-- `qdict_get`. -/
def qdictGet (d : Dict) (key : List UInt8) : Option Value := QDict.getEntry d key

/-- `qdict_put_obj`. -/
def qdictPutObj (d : Dict) (key : List UInt8) (value : Value) : Dict :=
  QDict.putEntry id d key value

/-! ### Texts -/

/-- The bytes of an ASCII string. -/
def ascii (s : String) : List UInt8 := s.toList.map chr

/-- What `parse_error` is called with. -/
inductive ParseError where
  | prematureEoi | keyNotString | missingColon | missingValue | dictSeparator | listSeparator
  | expectingValue
  | invalidKeyword (token : List UInt8)
  | invalidHexEscape | invalidEscape
  deriving DecidableEq

/-- The text of an error; it is cut to fit a buffer of 1024 bytes. -/
def ParseError.message (e : ParseError) : List UInt8 :=
  (match e with
    | prematureEoi => ascii "premature EOI"
    | keyNotString => ascii "key is not a string in object"
    | missingColon => ascii "missing : in object pair"
    | missingValue => ascii "Missing value in dict"
    | dictSeparator => ascii "expected separator in dict"
    | listSeparator => ascii "expected separator in list"
    | expectingValue => ascii "expecting value"
    | invalidKeyword token => ascii "invalid keyword \x60" ++ token ++ ascii "'"
    | invalidHexEscape => ascii "invalid hex escape sequence in string"
    | invalidEscape => ascii "invalid escape sequence in string").take 1023

/-- `hex2decimal`, for a hexadecimal digit. -/
def hex2decimal (ch : UInt8) : ℕ :=
  if isDigit ch then ch.toNat - (chr '0').toNat
  else if chr 'a' ≤ ch && ch ≤ chr 'f' then 10 + (ch.toNat - (chr 'a').toNat)
  else 10 + (ch.toNat - (chr 'A').toNat)

/-- `wchar_to_utf8`. -/
def wcharToUtf8 (wchar : ℕ) : List UInt8 :=
  if wchar ≤ 0x007F then [UInt8.ofNat (wchar &&& 0x7F)]
  else if wchar ≤ 0x07FF then
    [UInt8.ofNat (0xC0 ||| ((wchar >>> 6) &&& 0x1F)), UInt8.ofNat (0x80 ||| (wchar &&& 0x3F))]
  else
    [UInt8.ofNat (0xE0 ||| ((wchar >>> 12) &&& 0x0F)),
      UInt8.ofNat (0x80 ||| ((wchar >>> 6) &&& 0x3F)), UInt8.ofNat (0x80 ||| (wchar &&& 0x3F))]

/-- What `qstring_append` appends of a buffer. -/
def cString (buffer : List UInt8) : List UInt8 := buffer.takeWhile (· ≠ 0)

/-- The escapes of one character. -/
def simpleEscape (ch : UInt8) : Option UInt8 :=
  if ch = chr '\x22' then some (chr '\x22')
  else if ch = chr '\x27' then some (chr '\x27')
  else if ch = chr '\x5c' then some (chr '\x5c')
  else if ch = chr '/' then some (chr '/')
  else if ch = chr 'b' then some 8
  else if ch = chr 'f' then some 12
  else if ch = chr 'n' then some (chr '\n')
  else if ch = chr 'r' then some (chr '\r')
  else if ch = chr 't' then some (chr '\t')
  else none

/-- The loop of `qstring_from_escaped_str`, up to the closing quote or the end of the text. -/
def unescape (quote : UInt8) : List UInt8 → Except ParseError (List UInt8)
  | [] => .ok []
  | [ch] =>
    if ch = quote then .ok [] else if ch = chr '\x5c' then .error .invalidEscape else .ok [ch]
  | ch :: e :: l =>
    if ch = quote then .ok []
    else if ch ≠ chr '\x5c' then (unescape quote (e :: l)).map (ch :: ·)
    else if e = chr 'u' then
      match l with
      | a :: b :: c :: d :: l =>
        if isXDigit a && isXDigit b && isXDigit c && isXDigit d then
          (unescape quote l).map
            (cString (wcharToUtf8 (hex2decimal a <<< 12 ||| hex2decimal b <<< 8 |||
            hex2decimal c <<< 4 ||| hex2decimal d)) ++ ·)
        else .error .invalidHexEscape
      | _ => .error .invalidHexEscape
    else
      match simpleEscape e with
      | some r => (unescape quote l).map (r :: ·)
      | none => .error .invalidEscape

/-- `qstring_from_escaped_str`. It reads past the end of an empty text. -/
def qstringFromEscapedStr : List UInt8 → Option (Except ParseError (List UInt8))
  | [] => none
  | ch :: l => some (unescape (if ch = chr '\x22' then ch else chr '\x27') l)

/-- `isspace`. -/
def isCSpace (ch : UInt8) : Bool := isSpace ch || ch == 11 || ch == 12

/-- The value of leading decimal digits. -/
def digitsValue (l : List UInt8) : ℕ :=
  (l.takeWhile isDigit).foldl (fun n ch => 10 * n + (ch.toNat - (chr '0').toNat)) 0

/-- `strtoll` to base ten. -/
def strtoll (text : List UInt8) : Int64 :=
  let value : ℤ :=
    match text.dropWhile isCSpace with
    | [] => 0
    | ch :: l =>
      if ch = chr '-' then -(digitsValue l : ℤ)
      else if ch = chr '+' then digitsValue l
      else digitsValue (ch :: l)
  Int64.ofInt (max (-2 ^ 63) (min (2 ^ 63 - 1) value))

/-! ### The state of the parser -/

/-- An argument of the `va_list`. A pointer may be `NULL`. -/
inductive Arg where
  | object (o : Option Value)
  | int (i : Int32)
  | long (i : Int64)
  | longLong (i : Int64)
  | string (s : Option (List UInt8))
  | double (bits : UInt64)

/-- The token list of a caller, the arguments if there are any, and the error of the context. -/
structure Parsing where
  tokens : List Token
  ap : Option (List Arg)
  err : Option ParseError

/-- The result of a rule. -/
abbrev Parsed (α : Type) : Type := Option (Option α × Parsing)

/-- A rule that fails keeps the token list of its caller. -/
def Parsing.back (c w : Parsing) : Parsing := { w with tokens := c.tokens }

/-- `parse_error`. -/
def Parsing.error (c : Parsing) (e : ParseError) : Parsing := { c with err := some e }

/-- `token_is_operator`. -/
def Token.isOperator (t : Token) (op : Char) : Bool :=
  t.type == .jsonOperator && t.token == [chr op]

/-- `token_is_escape`. -/
def Token.isEscape (t : Token) (value : String) : Bool :=
  t.type == .jsonEscape && t.token == ascii value

/-! ### Rules for single tokens -/

/-- The argument that an escape takes, and the value that it makes of it. `qstring_from_str` does
not take `NULL`. -/
def escapeArg (t : Token) (a : Arg) : Option (Option Value) :=
  if t.isEscape "%p" then
    match a with
    | .object o => some o
    | _ => none
  else if t.isEscape "%i" then
    match a with
    | .int i => some (some (.qbool (i ≠ 0)))
    | _ => none
  else if t.isEscape "%d" then
    match a with
    | .int i => some (some (.qint i.toInt64))
    | _ => none
  else if t.isEscape "%ld" then
    match a with
    | .long i => some (some (.qint i))
    | _ => none
  else if t.isEscape "%lld" || t.isEscape "%I64d" then
    match a with
    | .longLong i => some (some (.qint i))
    | _ => none
  else if t.isEscape "%s" then
    match a with
    | .string (some s) => some (some (.qstring s))
    | _ => none
  else
    match a with
    | .double bits => some (some (.qfloat bits))
    | _ => none

/-- The escapes that `parse_escape` knows. -/
def Token.isKnownEscape (t : Token) : Bool :=
  t.isEscape "%p" || t.isEscape "%i" || t.isEscape "%d" || t.isEscape "%ld" || t.isEscape "%lld" ||
    t.isEscape "%I64d" || t.isEscape "%s" || t.isEscape "%f"

/-- `parse_escape`. -/
def parseEscape (c : Parsing) : Parsed Value :=
  match c.ap, c.tokens with
  | none, _ => some (none, c)
  | some _, [] => some (none, c)
  | some args, t :: rest =>
    if t.isKnownEscape then
      match args with
      | [] => none
      | a :: args => (escapeArg t a).map fun v => (v, { c with tokens := rest, ap := some args })
    else some (none, c)

/-- `parse_keyword`. -/
def parseKeyword (c : Parsing) : Parsed Value :=
  match c.tokens with
  | [] => some (none, c)
  | t :: rest =>
    if t.type ≠ .jsonKeyword then some (none, c)
    else if t.token = ascii "true" then some (some (.qbool true), { c with tokens := rest })
    else if t.token = ascii "false" then some (some (.qbool false), { c with tokens := rest })
    else some (none, c.error (.invalidKeyword t.token))

/-- `parse_literal`. A string that cannot be unescaped is `NULL`, but its token is gone. -/
def parseLiteral (strtod : List UInt8 → UInt64) (c : Parsing) : Parsed Value :=
  match c.tokens with
  | [] => some (none, c)
  | t :: rest =>
    match t.type with
    | .jsonString =>
      match qstringFromEscapedStr t.token with
      | none => none
      | some (.ok s) => some (some (.qstring s), { c with tokens := rest })
      | some (.error e) => some (none, { c.error e with tokens := rest })
    | .jsonInteger => some (some (.qint (strtoll t.token)), { c with tokens := rest })
    | .jsonFloat => some (some (.qfloat (strtod t.token)), { c with tokens := rest })
    | _ => some (none, c)

/-! ### Rules for objects and arrays

They call `parse_value`, which is a parameter here. -/

/-- Call a rule, and go on with its result or with its failure. -/
def attempt {α β : Type} (r : Parsed α) (fail : Parsing → Parsed β) (ok : α → Parsing → Parsed β) :
    Parsed β :=
  match r with
  | none => none
  | some (none, w) => fail w
  | some (some a, w) => ok a w

/-- `parse_pair`. -/
def parsePair (value : Parsing → Parsed Value) (dict : Dict) (c : Parsing) : Parsed Dict :=
  match c.tokens with
  | [] => some (none, c.error .prematureEoi)
  | _ :: _ =>
    attempt (value c) (fun w => some (none, (c.back w).error .keyNotString)) fun key w =>
      match key with
      | .qstring k =>
        match w.tokens with
        | [] => some (none, (c.back w).error .prematureEoi)
        | t :: rest =>
          if t.isOperator ':' then
            attempt (value { w with tokens := rest })
              (fun w => some (none, (c.back w).error .missingValue))
              fun v w => some (some (qdictPutObj dict k v), w)
          else some (none, (c.back w).error .missingColon)
      | _ => some (none, (c.back w).error .keyNotString)

/-- The loop of `parse_object`, after a pair. Each round takes two tokens or more. -/
def pairsLoop (value : Parsing → Parsed Value) : ℕ → Dict → Parsing → Parsed Dict
  | 0, _, _ => none
  | fuel + 1, dict, w =>
    match w.tokens with
    | [] => some (none, w.error .prematureEoi)
    | t :: rest =>
      if t.isOperator '\x7d' then some (some dict, { w with tokens := rest })
      else if t.isOperator ',' then
        attempt (parsePair value dict { w with tokens := rest }) (fun w => some (none, w))
          (pairsLoop value fuel)
      else some (none, w.error .dictSeparator)

/-- `parse_object`. -/
def parseObject (value : Parsing → Parsed Value) (c : Parsing) : Parsed Value :=
  match c.tokens with
  | [] => some (none, c)
  | t :: rest =>
    if t.isOperator '\x7b' then
      match rest with
      | [] => some (none, c.error .prematureEoi)
      | peek :: rest' =>
        if peek.isOperator '\x7d' then some (some (.qdict []), { c with tokens := rest' })
        else
          attempt (parsePair value [] { c with tokens := rest }) (fun w => some (none, c.back w))
            fun dict w =>
              attempt (pairsLoop value (w.tokens.length + 1) dict w)
                (fun w => some (none, c.back w)) fun dict w => some (some (.qdict dict), w)
    else some (none, c)

/-- The loop of `parse_array`, after a value. -/
def elemsLoop (value : Parsing → Parsed Value) :
    ℕ → List Value → Parsing → Parsed (List Value)
  | 0, _, _ => none
  | fuel + 1, list, w =>
    match w.tokens with
    | [] => some (none, w.error .prematureEoi)
    | t :: rest =>
      if t.isOperator ']' then some (some list, { w with tokens := rest })
      else if t.isOperator ',' then
        attempt (value { w with tokens := rest }) (fun w => some (none, w.error .expectingValue))
          fun v w => elemsLoop value fuel (list ++ [v]) w
      else some (none, w.error .listSeparator)

/-- `parse_array`. -/
def parseArray (value : Parsing → Parsed Value) (c : Parsing) : Parsed Value :=
  match c.tokens with
  | [] => some (none, c)
  | t :: rest =>
    if t.isOperator '[' then
      match rest with
      | [] => some (none, c.error .prematureEoi)
      | peek :: rest' =>
        if peek.isOperator ']' then some (some (.qlist []), { c with tokens := rest' })
        else
          attempt (value { c with tokens := rest })
            (fun w => some (none, (c.back w).error .expectingValue)) fun v w =>
              attempt (elemsLoop value (w.tokens.length + 1) [v] w)
                (fun w => some (none, c.back w)) fun list w => some (some (.qlist list), w)
    else some (none, c)

/-! ### What a rule did -/

theorem attempt_eq_some {α β : Type} {r : Parsed α} {fail : Parsing → Parsed β}
    {ok : α → Parsing → Parsed β} {b : Option β} {c' : Parsing} :
    attempt r fail ok = some (b, c') ↔
      (∃ w, r = some (none, w) ∧ fail w = some (b, c')) ∨
        ∃ a w, r = some (some a, w) ∧ ok a w = some (b, c') := by
  rcases r with _ | ⟨_ | a, w⟩ <;> simp [attempt]

/-! Objects and arrays are read alike: items with a comma between them, in brackets. -/

/-- What opens and closes a list, what reads an item, and what is made of the items. -/
structure Brackets (α : Type) where
  opening : Char
  closing : Char
  separator : ParseError
  item : α → Parsing → Parsed α
  empty : α
  wrap : α → Value

namespace Brackets

variable {α : Type} (k : Brackets α)

/-- The loop behind the first item. -/
def loop : ℕ → α → Parsing → Parsed α
  | 0, _, _ => none
  | fuel + 1, a, w =>
    match w.tokens with
    | [] => some (none, w.error .prematureEoi)
    | t :: rest =>
      if t.isOperator k.closing then some (some a, { w with tokens := rest })
      else if t.isOperator ',' then
        attempt (k.item a { w with tokens := rest }) (fun w => some (none, w)) (loop fuel)
      else some (none, w.error k.separator)

/-- The whole rule. -/
def parse (c : Parsing) : Parsed Value :=
  match c.tokens with
  | [] => some (none, c)
  | t :: rest =>
    if t.isOperator k.opening then
      match rest with
      | [] => some (none, c.error .prematureEoi)
      | peek :: rest' =>
        if peek.isOperator k.closing then some (some (k.wrap k.empty), { c with tokens := rest' })
        else
          attempt (k.item k.empty { c with tokens := rest })
            (fun w => some (none, c.back w)) fun a w =>
            attempt (k.loop (w.tokens.length + 1) a w) (fun w => some (none, c.back w)) fun a w =>
              some (some (k.wrap a), w)
    else some (none, c)

variable {k} {c c' : Parsing}

/-- A round of the loop ends it, or has read an item. -/
theorem loop_cases {fuel : ℕ} {a a' : α} (h : k.loop (fuel + 1) a c = some (some a', c')) :
    ∃ t rest, c.tokens = t :: rest ∧
      ((t.isOperator k.closing = true ∧ a' = a ∧ c' = { c with tokens := rest }) ∨
        (t.isOperator ',' = true ∧ ∃ a₁ w, k.item a { c with tokens := rest } = some (some a₁, w) ∧
          k.loop fuel a₁ w = some (some a', c'))) := by
  rw [loop] at h
  split at h
  next => cases h
  next t rest htokens =>
    refine ⟨t, rest, htokens, ?_⟩
    split_ifs at h with hclose hcomma
    · cases h
      exact .inl ⟨hclose, rfl, rfl⟩
    · rcases attempt_eq_some.mp h with ⟨w, -, hfail⟩ | ⟨a₁, w, hitem, hloop⟩
      · cases hfail
      · exact .inr ⟨hcomma, a₁, w, hitem, hloop⟩
    · cases h

/-- The rule says nothing unless there is an opening token. Behind one it fails and keeps the token
list, or it has read the items. -/
theorem parse_cases {r : Option Value} (h : k.parse c = some (r, c')) :
    (r = none ∧ c' = c) ∨ ∃ t rest, c.tokens = t :: rest ∧ t.isOperator k.opening = true ∧
      ((r = none ∧ c'.tokens = c.tokens) ∨
        (∃ u rest', rest = u :: rest' ∧ u.isOperator k.closing = true ∧ r = some (k.wrap k.empty) ∧
          c' = { c with tokens := rest' }) ∨
        ∃ a w a', k.item k.empty { c with tokens := rest } = some (some a, w) ∧
          k.loop (w.tokens.length + 1) a w = some (some a', c') ∧ r = some (k.wrap a')) := by
  rw [parse] at h
  split at h
  next =>
    cases h
    exact .inl ⟨rfl, rfl⟩
  next t rest htokens =>
    split_ifs at h with ht
    · refine .inr ⟨t, rest, htokens, ht, ?_⟩
      split at h
      next =>
        cases h
        exact .inl ⟨rfl, rfl⟩
      next u rest' =>
        split_ifs at h with hu
        · cases h
          exact .inr (.inl ⟨u, rest', rfl, hu, rfl, rfl⟩)
        · rcases attempt_eq_some.mp h with ⟨w, -, hfail⟩ | ⟨a, w, hitem, hok⟩
          · cases hfail
            exact .inl ⟨rfl, rfl⟩
          · rcases attempt_eq_some.mp hok with ⟨w', -, hfail⟩ | ⟨a', w', hloop, hok'⟩
            · cases hfail
              exact .inl ⟨rfl, rfl⟩
            · cases hok'
              exact .inr (.inr ⟨a, w, a', hitem, hloop, rfl⟩)
    · cases h
      exact .inl ⟨rfl, rfl⟩

/-- If the rule fails, the token list is as before. It says nothing unless there is an opening
token. -/
theorem parse_fail (h : k.parse c = some (none, c')) :
    c' = c ∨ ∃ t rest, c.tokens = t :: rest ∧ t.isOperator k.opening = true ∧
    c'.tokens = c.tokens := by
  rcases parse_cases h with ⟨-, rfl⟩ | ⟨t, rest, htokens, ht, hread⟩
  · exact .inl rfl
  · rcases hread with ⟨-, hw⟩ | ⟨u, rest', -, -, hsome, -⟩ | ⟨a, w, a', -, -, hsome⟩
    · exact .inr ⟨t, rest, htokens, ht, hw⟩
    · cases hsome
    · cases hsome

/-- The rule does not touch a token that does not open. -/
theorem parse_of_ne {t : Token} {rest : List Token} (htokens : c.tokens = t :: rest)
    (ht : t.isOperator k.opening = false) : k.parse c = some (none, c) := by
  simp [parse, htokens, ht]

end Brackets

section Rules

variable {value : Parsing → Parsed Value} {c c' : Parsing}

/-- The items of objects. -/
def objects (value : Parsing → Parsed Value) : Brackets Dict :=
  ⟨'\x7b', '\x7d', .dictSeparator, parsePair value, [], .qdict⟩

/-- The items of arrays. -/
def arrays (value : Parsing → Parsed Value) : Brackets (List Value) :=
  ⟨'[', ']', .listSeparator, fun list c => attempt (value c)
    (fun w => some (none, w.error .expectingValue))
    fun v w => some (some (list ++ [v]), w), [], .qlist⟩

theorem pairsLoop_eq (fuel : ℕ) : pairsLoop value fuel = (objects value).loop fuel := by
  induction fuel with
  | zero => rfl
  | succ fuel ih =>
    funext d c
    rw [pairsLoop, ih]
    rfl

theorem parseObject_eq : parseObject value = (objects value).parse := by
  funext c
  simp only [parseObject, pairsLoop_eq]
  rfl

theorem attempt_attempt {α β γ : Type} {r : Parsed α} {fail : Parsing → Parsed β}
    {ok : α → Parsing → Parsed β} {fail' : Parsing → Parsed γ} {ok' : β → Parsing → Parsed γ} :
    attempt (attempt r fail ok) fail' ok' =
      attempt r (fun w => attempt (fail w) fail' ok') fun a w => attempt (ok a w) fail' ok' := by
  rcases r with _ | ⟨_ | a, w⟩ <;> rfl

theorem elemsLoop_eq (fuel : ℕ) : elemsLoop value fuel = (arrays value).loop fuel := by
  induction fuel with
  | zero => rfl
  | succ fuel ih =>
    funext l c
    simp only [elemsLoop, ih, Brackets.loop, arrays, attempt_attempt]
    rfl

theorem parseArray_eq : parseArray value = (arrays value).parse := by
  funext c
  simp only [parseArray, elemsLoop_eq, Brackets.parse, arrays, attempt_attempt]
  rfl

/-- `parse_pair` fails and keeps the token list, or it has read a pair. -/
theorem parsePair_cases {d : Dict} {r : Option Dict} (h : parsePair value d c = some (r, c')) :
    (r = none ∧ c'.tokens = c.tokens) ∨
      ∃ k w t rest v, value c = some (some (.qstring k), w) ∧ w.tokens = t :: rest ∧
        t.isOperator ':' = true ∧ value { w with tokens := rest } = some (some v, c') ∧
        r = some (qdictPutObj d k v) := by
  rw [parsePair] at h
  split at h
  · cases h
    exact .inl ⟨rfl, rfl⟩
  · rcases attempt_eq_some.mp h with ⟨w, -, hfail⟩ | ⟨key, w, hkey, hok⟩
    · cases hfail
      exact .inl ⟨rfl, rfl⟩
    · split at hok
      next k =>
        split at hok
        next =>
          cases hok
          exact .inl ⟨rfl, rfl⟩
        next t rest htokens =>
          split at hok
          next ht =>
            rcases attempt_eq_some.mp hok with ⟨w', -, hfail⟩ | ⟨v, w', hval, hok'⟩
            · cases hfail
              exact .inl ⟨rfl, rfl⟩
            · cases hok'
              exact .inr ⟨k, w, t, rest, v, hkey, htokens, ht, hval, rfl⟩
          next =>
            cases hok
            exact .inl ⟨rfl, rfl⟩
      next =>
        cases hok
        exact .inl ⟨rfl, rfl⟩

/-- `parse_escape` has taken an escape with its argument, or nothing. -/
theorem parseEscape_cases {r : Option Value} (h : parseEscape c = some (r, c')) :
    (r = none ∧ c' = c) ∨ ∃ t rest a args, c.tokens = t :: rest ∧ c.ap = some (a :: args) ∧
      t.isKnownEscape = true ∧ escapeArg t a = some r ∧
      c' = { c with tokens := rest, ap := some args } := by
  rw [parseEscape] at h
  split at h
  · cases h
    exact .inl ⟨rfl, rfl⟩
  · cases h
    exact .inl ⟨rfl, rfl⟩
  · rename_i args t rest hap htokens
    split at h
    · rename_i ht
      split at h
      · cases h
      · rename_i a args
        obtain ⟨v, hv, heq⟩ := Option.map_eq_some_iff.mp h
        cases heq
        exact .inr ⟨t, rest, a, args, htokens, hap, ht, hv, rfl⟩
    · cases h
      exact .inl ⟨rfl, rfl⟩

end Rules

/-- Try a rule if the rules before it returned `NULL`. -/
def orElse (r : Parsed Value) (rule : Parsing → Parsed Value) : Parsed Value :=
  attempt r rule fun v c => some (some v, c)

/-- `parse_value`, to some depth. -/
def parseValue (strtod : List UInt8 → UInt64) : ℕ → Parsing → Parsed Value
  | 0, _ => none
  | depth + 1, c =>
    let value := parseValue strtod depth
    orElse (orElse (orElse (orElse (parseObject value c) (parseArray value)) parseEscape)
      parseKeyword) (parseLiteral strtod)

/-- `json_parser_parse_err`, with the arguments that are left. -/
def jsonParserParse (strtod : List UInt8 → UInt64) (tokens : Option (List Token))
    (ap : Option (List Arg)) : Parsed Value :=
  match tokens with
  | none => some (none, ⟨[], ap, none⟩)
  | some tokens => parseValue strtod (tokens.length + 1) ⟨tokens, ap, none⟩

end VariabilityTestbed.Json
