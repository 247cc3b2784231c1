import VariabilityTestbed.Json.Parser

/-!
# The grammar of the JSON parser

The grammar says which token lists stand for a value:

* value ::= object | array | escape | `true` | `false` | string | integer | float
* object ::= `{` `}` | `{` pair pairs, with pairs ::= `}` | `,` pair pairs
* array ::= `[` `]` | `[` value elems, with elems ::= `]` | `,` value elems
* pair ::= value `:` value, where the first value is a string

A derivation also says which arguments the escapes take.

The parser accepts more. `parse_escape` returns `NULL` for a `%p` whose argument is `NULL`, but it
has replaced the token list of `parse_value` by then, and `parse_value` goes on with `parse_keyword`
and `parse_literal` behind the escape. The rule for this is part of `Derives true` only. Also a
string with an invalid escape is lost from the token list although it makes no value.
-/

namespace VariabilityTestbed.Json

open List

/-! ### Derivations -/

/-- The dictionary that is made of pairs, the first one put first. -/
def putPairs (d l : Dict) : Dict := l.foldl (fun d e => qdictPutObj d e.1 e.2) d

/-- The value of a token that is no escape. -/
def tokenValue (strtod : List UInt8 → UInt64) (t : Token) : Option Value :=
  match t.type with
  | .jsonKeyword =>
    if t.token = ascii "true" then some (.qbool true)
    else if t.token = ascii "false" then some (.qbool false)
    else none
  | .jsonString =>
    match qstringFromEscapedStr t.token with
    | some (.ok s) => some (.qstring s)
    | _ => none
  | .jsonInteger => some (.qint (strtoll t.token))
  | .jsonFloat => some (.qfloat (strtod t.token))
  | _ => none

/-- The symbols of the grammar, with what they stand for. -/
inductive Sym where
  | value (v : Value)
  | pair (k : List UInt8) (v : Value)
  | pairs (l : Dict)
  | elems (l : List Value)

/-- `Derives skip s ts args`: the tokens `ts` derive `s`, and the escapes among them take `args`.
With `skip` a `%p` with the argument `NULL` may stand in front of a keyword or a literal. -/
inductive Derives (strtod : List UInt8 → UInt64) (skip : Bool) : Sym → List Token → List Arg → Prop
  | token {t : Token} {v : Value} (h : tokenValue strtod t = some v) :
      Derives strtod skip (.value v) [t] []
  | escape {t : Token} {a : Arg} {v : Value} (ht : t.isKnownEscape = true)
      (h : escapeArg t a = some (some v)) : Derives strtod skip (.value v) [t] [a]
  | skipped {t u : Token} {a : Arg} {v : Value} (hskip : skip = true) (ht : t.isKnownEscape = true)
      (h : escapeArg t a = some none) (hu : tokenValue strtod u = some v) :
      Derives strtod skip (.value v) [t, u] [a]
  | emptyObject {t u : Token} (ht : t.isOperator '\x7b' = true) (hu : u.isOperator '\x7d' = true) :
      Derives strtod skip (.value (.qdict [])) [t, u] []
  | object {t : Token} {k : List UInt8} {v : Value} {l : Dict} {ts us : List Token}
      {as bs : List Arg} (ht : t.isOperator '\x7b' = true)
      (hpair : Derives strtod skip (.pair k v) ts as)
      (hpairs : Derives strtod skip (.pairs l) us bs) :
      Derives strtod skip (.value (.qdict (putPairs [] ((k, v) :: l)))) (t :: (ts ++ us)) (as ++ bs)
  | pair {t : Token} {k : List UInt8} {v : Value} {ts us : List Token} {as bs : List Arg}
      (hkey : Derives strtod skip (.value (.qstring k)) ts as) (ht : t.isOperator ':' = true)
      (hvalue : Derives strtod skip (.value v) us bs) :
      Derives strtod skip (.pair k v) (ts ++ t :: us) (as ++ bs)
  | noPairs {t : Token} (ht : t.isOperator '\x7d' = true) : Derives strtod skip (.pairs []) [t] []
  | pairs {t : Token} {k : List UInt8} {v : Value} {l : Dict} {ts us : List Token}
      {as bs : List Arg} (ht : t.isOperator ',' = true)
      (hpair : Derives strtod skip (.pair k v) ts as)
      (hpairs : Derives strtod skip (.pairs l) us bs) :
      Derives strtod skip (.pairs ((k, v) :: l)) (t :: (ts ++ us)) (as ++ bs)
  | emptyArray {t u : Token} (ht : t.isOperator '[' = true) (hu : u.isOperator ']' = true) :
      Derives strtod skip (.value (.qlist [])) [t, u] []
  | array {t : Token} {v : Value} {l : List Value} {ts us : List Token} {as bs : List Arg}
      (ht : t.isOperator '[' = true) (hvalue : Derives strtod skip (.value v) ts as)
      (helems : Derives strtod skip (.elems l) us bs) :
      Derives strtod skip (.value (.qlist (v :: l))) (t :: (ts ++ us)) (as ++ bs)
  | noElems {t : Token} (ht : t.isOperator ']' = true) : Derives strtod skip (.elems []) [t] []
  | elems {t : Token} {v : Value} {l : List Value} {ts us : List Token} {as bs : List Arg}
      (ht : t.isOperator ',' = true) (hvalue : Derives strtod skip (.value v) ts as)
      (helems : Derives strtod skip (.elems l) us bs) :
      Derives strtod skip (.elems (v :: l)) (t :: (ts ++ us)) (as ++ bs)

variable {strtod : List UInt8 → UInt64} {skip : Bool}

variable {ts : List Token} {args : List Arg}

theorem Derives.ne_nil {s : Sym} (h : Derives strtod skip s ts args) : ts ≠ [] := by
  cases h <;> simp

/-- The arguments that are taken from the `va_list`. Without one there are none. -/
inductive Takes : Option (List Arg) → List Arg → Option (List Arg) → Prop
  | null : Takes none [] none
  | list (args rest : List Arg) : Takes (some (args ++ rest)) args (some rest)

theorem Takes.nil (ap : Option (List Arg)) : Takes ap [] ap := by
  cases ap with
  | none => exact .null
  | some l => exact .list [] l

variable {as bs : List Arg}

theorem Takes.trans {ap ap₁ ap₂ : Option (List Arg)} (h : Takes ap as ap₁)
    (h' : Takes ap₁ bs ap₂) : Takes ap (as ++ bs) ap₂ := by
  cases h with
  | null =>
    cases h'
    exact .null
  | list _ rest =>
    cases h' with
    | list _ rest' =>
      rw [← append_assoc]
      exact .list _ _

theorem Takes.split {ap ap₂ : Option (List Arg)} (h : Takes ap (as ++ bs) ap₂) :
    ∃ ap₁, Takes ap as ap₁ ∧ Takes ap₁ bs ap₂ := by
  generalize hargs : as ++ bs = args at h
  cases h with
  | null =>
    obtain ⟨rfl, rfl⟩ := append_eq_nil_iff.mp hargs
    exact ⟨none, .null, .null⟩
  | list _ rest =>
    refine ⟨some (bs ++ rest), ?_, .list bs rest⟩
    rw [← hargs, append_assoc]
    exact .list as (bs ++ rest)

/-- `c'` is `c` without the tokens `ts` and the arguments `args`. -/
structure Past (ts : List Token) (args : List Arg) (c c' : Parsing) : Prop where
  tokens : c.tokens = ts ++ c'.tokens
  ap : Takes c.ap args c'.ap
  err : c'.err = c.err

variable {us : List Token} {c : Parsing}

theorem Past.trans {c₁ c₂ : Parsing} (h : Past ts as c c₁)
    (h' : Past us bs c₁ c₂) : Past (ts ++ us) (as ++ bs) c c₂ where
  tokens := by rw [h.tokens, h'.tokens, append_assoc]
  ap := h.ap.trans h'.ap
  err := h'.err.trans h.err

theorem Past.split {c₂ : Parsing}
    (h : Past (ts ++ us) (as ++ bs) c c₂) : ∃ c₁, Past ts as c c₁ ∧ Past us bs c₁ c₂ := by
  obtain ⟨ap₁, hap, hap'⟩ := h.ap.split
  refine ⟨⟨us ++ c₂.tokens, ap₁, c.err⟩, ⟨?_, hap, rfl⟩, ⟨rfl, hap', h.err⟩⟩
  rw [h.tokens, append_assoc]

variable {t : Token}

theorem Past.uncons {c₂ : Parsing}
    (h : Past (t :: ts) args c c₂) : ∃ c₁, Past [t] [] c c₁ ∧ Past ts args c₁ c₂ := by
  have h' : Past ([t] ++ ts) ([] ++ args) c c₂ := h
  exact h'.split

variable {rest : List Token}

/-- One token more. -/
theorem Past.pop (h : c.tokens = t :: rest) :
    Past [t] [] c { c with tokens := rest } := ⟨h, .nil _, rfl⟩

variable {c' : Parsing}

theorem Past.eq_of_nil (h : Past ts [] c c') : c' = { c with tokens := c'.tokens } := by
  obtain ⟨tokens, ap, err⟩ := c
  obtain ⟨tokens', ap', err'⟩ := c'
  obtain ⟨htokens, hap, herr⟩ := h
  obtain rfl : err' = err := herr
  cases hap <;> rfl

theorem Past.eq_pop (h : Past [t] [] c c') :
    c.tokens = t :: c'.tokens ∧ c' = { c with tokens := c'.tokens } := ⟨h.tokens, h.eq_of_nil⟩

/-- `c'` is `c` without the tokens of a symbol. -/
def Reads (strtod : List UInt8 → UInt64) (skip : Bool) (s : Sym) (c c' : Parsing) : Prop :=
  ∃ ts args, Derives strtod skip s ts args ∧ Past ts args c c'

/-! ### Objects and arrays -/

/-- The rules of the grammar for one kind of brackets, with items that stand for a `ι` each. -/
structure Rules (strtod : List UInt8 → UInt64) {α : Type} (k : Brackets α) (ι : Type) where
  put : α → ι → α
  item : ι → Sym
  items : List ι → Sym
  nil : ∀ {ts args}, Derives strtod true (items []) ts args ↔
    ∃ t, t.isOperator k.closing = true ∧ ts = [t] ∧ args = []
  cons : ∀ {x l ts args}, Derives strtod true (items (x :: l)) ts args ↔ ∃ t ts' us as bs,
    t.isOperator ',' = true ∧ Derives strtod true (item x) ts' as ∧
    Derives strtod true (items l) us bs ∧
      ts = t :: (ts' ++ us) ∧ args = as ++ bs
  empty : ∀ {t u}, t.isOperator k.opening = true → u.isOperator k.closing = true →
    Derives strtod true (.value (k.wrap k.empty)) [t, u] []
  value : ∀ {t x l ts us as bs}, t.isOperator k.opening = true →
    Derives strtod true (item x) ts as →
    Derives strtod true (items l) us bs →
    Derives strtod true (.value (k.wrap (l.foldl put (put k.empty x)))) (t :: (ts ++ us)) (as ++ bs)

variable {value : Parsing → Parsed Value}

def objectRules (strtod : List UInt8 → UInt64) (value : Parsing → Parsed Value) :
    Rules strtod (objects value) (List UInt8 × Value) where
  put d e := qdictPutObj d e.1 e.2
  item e := .pair e.1 e.2
  items := .pairs
  nil := by
    refine ⟨fun h => ?_, ?_⟩
    · cases h with
      | noPairs ht => exact ⟨_, ht, rfl, rfl⟩
    · rintro ⟨t, ht, rfl, rfl⟩
      exact .noPairs ht
  cons := by
    refine ⟨fun h => ?_, ?_⟩
    · cases h with
      | pairs ht hpair hpairs => exact ⟨_, _, _, _, _, ht, hpair, hpairs, rfl, rfl⟩
    · rintro ⟨t, ts, us, as, bs, ht, hpair, hpairs, rfl, rfl⟩
      exact .pairs ht hpair hpairs
  empty := .emptyObject
  value := .object

theorem foldl_elems (l m : List Value) : m.foldl (fun l v => l ++ [v]) l = l ++ m := by
  induction m generalizing l with
  | nil => exact (append_nil l).symm
  | cons v m ih => rw [foldl_cons, ih, append_assoc, singleton_append]

def arrayRules (strtod : List UInt8 → UInt64) (value : Parsing → Parsed Value) :
    Rules strtod (arrays value) Value where
  put l v := l ++ [v]
  item := .value
  items := .elems
  nil := by
    refine ⟨fun h => ?_, ?_⟩
    · cases h with
      | noElems ht => exact ⟨_, ht, rfl, rfl⟩
    · rintro ⟨t, ht, rfl, rfl⟩
      exact .noElems ht
  cons := by
    refine ⟨fun h => ?_, ?_⟩
    · cases h with
      | elems ht hvalue helems => exact ⟨_, _, _, _, _, ht, hvalue, helems, rfl, rfl⟩
    · rintro ⟨t, ts, us, as, bs, ht, hvalue, helems, rfl, rfl⟩
      exact .elems ht hvalue helems
  empty := .emptyArray
  value {t v l ts us as bs} ht hvalue helems := by
    rw [foldl_elems]
    exact .array ht hvalue helems

/-! ### What the parser accepts is derived -/

section

variable {α ι : Type} {k : Brackets α} {R : Rules strtod k ι} {a a' : α} {fuel : ℕ} {v : Value}

/-- What reads an item returns what is derived. -/
def Rules.Sound (R : Rules strtod k ι) : Prop :=
  ∀ a c a' c', k.item a c = some (some a', c') → ∃ x, a' = R.put a x ∧
    Reads strtod true (R.item x) c c'

theorem Rules.Sound.loop (hR : R.Sound) (h : k.loop fuel a c = some (some a', c')) :
    ∃ l, a' = l.foldl R.put a ∧ Reads strtod true (R.items l) c c' := by
  induction fuel generalizing a c with
  | zero => cases h
  | succ fuel ih =>
    obtain ⟨t, rest, htokens, ⟨ht, rfl, rfl⟩ | ⟨ht, a₁, w, hitem, hloop⟩⟩ := Brackets.loop_cases h
    · exact ⟨[], rfl, _, _, R.nil.mpr ⟨t, ht, rfl, rfl⟩, Past.pop htokens⟩
    · obtain ⟨x, rfl, ts, as, hder, hpast⟩ := hR _ _ _ _ hitem
      obtain ⟨l, rfl, us, bs, hder', hpast'⟩ := ih hloop
      refine ⟨x :: l, rfl, _, _, R.cons.mpr ⟨t, ts, us, as, bs, ht, hder, hder', rfl, rfl⟩, ?_⟩
      exact (Past.pop htokens).trans (hpast.trans hpast')

theorem Rules.Sound.parse (hR : R.Sound) (h : k.parse c = some (some v, c')) :
    Reads strtod true (.value v) c c' := by
  rcases Brackets.parse_cases h with ⟨hnone, -⟩ | ⟨t, rest, htokens, ht, hread⟩
  · cases hnone
  · rcases hread with ⟨hnone, -⟩ | ⟨u, rest', rfl, hu, hempty, rfl⟩ | ⟨a, w, a', hitem, hloop, ha⟩
    · cases hnone
    · cases hempty
      exact ⟨_, _, R.empty ht hu, htokens, .nil _, rfl⟩
    · cases ha
      obtain ⟨x, rfl, ts, as, hder, hpast⟩ := hR _ _ _ _ hitem
      obtain ⟨l, rfl, us, bs, hder', hpast'⟩ := hR.loop hloop
      exact ⟨_, _, R.value ht hder hder', (Past.pop htokens).trans (hpast.trans hpast')⟩

end

/-- What `parse_value` returns is derived. -/
def Sound (strtod : List UInt8 → UInt64) (value : Parsing → Parsed Value) : Prop :=
  ∀ c v c', value c = some (some v, c') → Reads strtod true (.value v) c c'

theorem Sound.objects (hv : Sound strtod value) : (objectRules strtod value).Sound := by
  intro d c d' c' h
  rcases parsePair_cases h with ⟨hnone, -⟩ | ⟨k, w, t, rest, v, hkey, htokens, ht, hval, hd⟩
  · cases hnone
  · obtain ⟨ts, as, hderkey, hpast⟩ := hv c _ w hkey
    obtain ⟨us, bs, hder, hpast'⟩ := hv _ v _ hval
    refine ⟨(k, v), Option.some.inj hd, _, _, .pair hderkey ht hder, ?_⟩
    exact hpast.trans ((Past.pop htokens).trans hpast')

theorem Sound.arrays (hv : Sound strtod value) : (arrayRules strtod value).Sound := by
  intro l c l' c' h
  rcases attempt_eq_some.mp h with ⟨w, -, hfail⟩ | ⟨v, w, hval, hok⟩
  · cases hfail
  · cases hok
    exact ⟨v, rfl, hv c v _ hval⟩

variable {v : Value}

theorem orElse_assoc (r : Parsed Value) (f g : Parsing → Parsed Value) :
    orElse (orElse r f) g = orElse r fun c => orElse (f c) g := by
  rcases r with _ | ⟨_ | v, w⟩ <;> rfl

/-- The rules for single tokens. -/
def singles (strtod : List UInt8 → UInt64) (c : Parsing) : Parsed Value :=
  orElse (parseEscape c) fun c => orElse (parseKeyword c) (parseLiteral strtod)

theorem parseValue_succ (n : ℕ) (c : Parsing) :
    parseValue strtod (n + 1) c = orElse ((objects (parseValue strtod n)).parse c) fun c =>
      orElse ((arrays (parseValue strtod n)).parse c) (singles strtod) := by
  simp only [parseValue, orElse_assoc, parseObject_eq, parseArray_eq]
  rfl

theorem tokenValue_type (h : tokenValue strtod t = some v) :
    t.type ≠ .jsonOperator ∧ t.type ≠ .jsonEscape := by
  constructor <;> intro htype <;> simp [tokenValue, htype] at h

theorem isOperator_type {op : Char} (h : t.isOperator op = true) : t.type = .jsonOperator := by
  rw [Token.isOperator, Bool.and_eq_true, beq_iff_eq] at h
  exact h.1

theorem isOperator_false (h : t.type ≠ .jsonOperator) (op : Char) : t.isOperator op = false := by
  simp [Token.isOperator, h]

theorem isKnownEscape_false (h : t.type ≠ .jsonEscape) : t.isKnownEscape = false := by
  simp [Token.isKnownEscape, Token.isEscape, h]

theorem isKnownEscape_type (h : t.isKnownEscape = true) : t.type = .jsonEscape := by
  by_contra hne
  rw [isKnownEscape_false hne] at h
  cases h

/-- `parse_escape` does not touch a token that is no escape. -/
theorem parseEscape_of_type
    (htokens : c.tokens = t :: rest) (htype : t.type ≠ .jsonEscape) :
    parseEscape c = some (none, c) := by
  rw [parseEscape, htokens]
  cases c.ap with
  | none => rfl
  | some args => simp [isKnownEscape_false htype]

/-- `parse_keyword` does not touch a token that is no keyword. -/
theorem parseKeyword_of_type
    (htokens : c.tokens = t :: rest) (htype : t.type ≠ .jsonKeyword) :
    parseKeyword c = some (none, c) := by
  rw [parseKeyword, htokens]
  exact if_pos htype

/-- A keyword or a literal. -/
theorem parseToken_eq_some_iff (htokens : c.tokens = t :: rest) :
    orElse (parseKeyword c) (parseLiteral strtod) = some (some v, c') ↔
      tokenValue strtod t = some v ∧ c' = { c with tokens := rest } := by
  by_cases htype : t.type = .jsonKeyword
  · simp only [tokenValue, htype, parseKeyword, htokens, ne_eq, not_true_eq_false, if_false]
    split_ifs
    · simp [orElse, attempt, eq_comm]
    · simp [orElse, attempt, eq_comm]
    · simp [orElse, attempt, parseLiteral, Parsing.error, htokens, htype]
  · rw [parseKeyword_of_type htokens htype]
    show parseLiteral strtod c = _ ↔ _
    rw [parseLiteral, htokens, tokenValue]
    dsimp only
    cases hother : t.type with
    | jsonString => rcases qstringFromEscapedStr t.token with _ | e | text <;> simp [eq_comm]
    | jsonKeyword => exact absurd hother htype
    | _ => simp [eq_comm]

theorem parseToken_sound
    (h : orElse (parseKeyword c) (parseLiteral strtod) = some (some v, c')) :
    ∃ t, tokenValue strtod t = some v ∧ Past [t] [] c c' := by
  cases htokens : c.tokens with
  | nil => simp [parseKeyword, parseLiteral, orElse, attempt, htokens] at h
  | cons t rest =>
    obtain ⟨hvalue, rfl⟩ := (parseToken_eq_some_iff htokens).mp h
    exact ⟨t, hvalue, Past.pop htokens⟩

theorem singles_sound (h : singles strtod c = some (some v, c')) :
    Reads strtod true (.value v) c c' := by
  rcases attempt_eq_some.mp h with ⟨w, hescape, htoken⟩ | ⟨v', w, hescape, hok⟩
  · obtain ⟨u, hu, hpast⟩ := parseToken_sound htoken
    rcases parseEscape_cases hescape with
      ⟨-, rfl⟩ | ⟨t, rest, a, args, htokens, hap, ht, harg, rfl⟩
    · exact ⟨_, _, .token hu, hpast⟩
    · refine ⟨_, _, .skipped rfl ht harg hu, ?_⟩
      have hfirst : Past [t] [a] c { c with tokens := rest, ap := some args } :=
        ⟨htokens, hap ▸ Takes.list [a] args, rfl⟩
      exact hfirst.trans hpast
  · cases hok
    rcases parseEscape_cases hescape with ⟨hnone, -⟩ | ⟨t, rest, a, args, htokens, hap,
      ht, harg, rfl⟩
    · cases hnone
    · exact ⟨_, _, .escape ht harg, htokens, hap ▸ Takes.list [a] args, rfl⟩

/-- No rule for single tokens touches an operator. -/
theorem singles_operator
    (htokens : c.tokens = t :: rest) (htype : t.type = .jsonOperator) :
    singles strtod c = some (none, c) := by
  rw [singles, parseEscape_of_type htokens (by simp [htype])]
  show orElse (parseKeyword c) (parseLiteral strtod) = _
  rw [parseKeyword_of_type htokens (by simp [htype])]
  show parseLiteral strtod c = _
  simp only [parseLiteral, htokens, htype]

/-- If `parse_pair` fails, the token list is as before. -/
theorem parsePair_fail {d : Dict} {w : Parsing} (h : parsePair value d c = some (none, w)) :
    w.tokens = c.tokens := by
  rcases parsePair_cases h with ⟨-, hw⟩ | ⟨k, w₁, t, rest, v, -, -, -, -, hsome⟩
  · exact hw
  · cases hsome

theorem isOperator_ne {op op' : Char} (h : t.isOperator op = true)
    (hne : chr op ≠ chr op') : t.isOperator op' = false := by
  rw [Token.isOperator, Bool.and_eq_true, beq_iff_eq, beq_iff_eq] at h
  simp [Token.isOperator, h.2, hne]

/-- The rules of `parse_value` behind `parse_object`. -/
theorem parseValue_of_brace {w : Parsing}
    (htokens : c.tokens = t :: rest) (ht : t.isOperator '\x7b' = true) (hw : w.tokens = c.tokens) :
    orElse ((arrays value).parse w) (singles strtod) = some (none, w) := by
  rw [Brackets.parse_of_ne (k := arrays value) (hw.trans htokens)
    (isOperator_ne ht (show _ ≠ chr '[' by decide))]
  exact singles_operator (hw.trans htokens) (isOperator_type ht)

/-- **What the parser returns is derived.** -/
theorem parseValue_sound (n : ℕ) : Sound strtod (parseValue strtod n) := by
  induction n with
  | zero =>
    intro c v c' h
    cases h
  | succ n ih =>
    intro c v c' h
    rw [parseValue_succ] at h
    rcases attempt_eq_some.mp h with ⟨w, hobject, hrest⟩ | ⟨v', w, hobject, hok⟩
    · rcases Brackets.parse_fail hobject with rfl | ⟨t, rest, htokens, ht, hw⟩
      · rcases attempt_eq_some.mp hrest with ⟨w', harray, hsingles⟩ | ⟨v', w', harray, hok⟩
        · rcases Brackets.parse_fail harray with rfl | ⟨t, rest, htokens, ht, hw⟩
          · exact singles_sound hsingles
          · rw [singles_operator (hw.trans htokens) (isOperator_type ht)] at hsingles
            cases hsingles
        · cases hok
          exact ih.arrays.parse harray
      · rw [parseValue_of_brace htokens ht hw] at hrest
        cases hrest
    · cases hok
      exact ih.objects.parse hobject

/-! ### What is derived is accepted -/

section

variable {α ι : Type} {k : Brackets α} {R : Rules strtod k ι} {fuel n : ℕ}

/-- What reads an item finds those that are derived by less than `n` tokens, and none of them begins
with the closing token. -/
structure Rules.Complete (R : Rules strtod k ι) (n : ℕ) : Prop where
  item : ∀ {a x ts args c c'}, Derives strtod true (R.item x) ts args → ts.length < n →
    Past ts args c c' →
    k.item a c = some (some (R.put a x), c')
  head : ∀ {x ts args}, Derives strtod true (R.item x) ts args → ∃ u us, ts = u :: us ∧
    u.isOperator k.closing = false
  comma : chr ',' ≠ chr k.closing

theorem Rules.Complete.loop (hR : R.Complete n) {l : List ι} (a : α)
    (h : Derives strtod true (R.items l) ts args) (hn : ts.length ≤ n)
    (hpast : Past ts args c c') (hfuel : ts.length ≤ fuel) :
    k.loop fuel a c = some (some (l.foldl R.put a), c') := by
  induction l generalizing ts args c a fuel with
  | nil =>
    obtain ⟨t, ht, rfl, rfl⟩ := R.nil.mp h
    obtain ⟨fuel, rfl⟩ := Nat.exists_eq_add_one.mpr hfuel
    obtain ⟨htokens, heq⟩ := hpast.eq_pop
    rw [Brackets.loop, htokens]
    simp only [ht, if_true, ← heq]
    rfl
  | cons x l ih =>
    obtain ⟨t, ts, us, as, bs, ht, hitem, hitems, rfl, rfl⟩ := R.cons.mp h
    rw [length_cons, length_append] at hn hfuel
    obtain ⟨fuel, rfl⟩ := Nat.exists_eq_succ_of_ne_zero (by omega : fuel ≠ 0)
    obtain ⟨c₁, hpast₁, hpast₂⟩ := hpast.uncons
    obtain ⟨c₂, hpast₃, hpast₄⟩ := hpast₂.split
    obtain ⟨htokens, heq⟩ := hpast₁.eq_pop
    have hne : t.isOperator k.closing = false := isOperator_ne ht hR.comma
    rw [Brackets.loop, htokens]
    simp only [hne, ht, if_true, ← heq, Bool.false_eq_true, if_false]
    rw [hR.item hitem (by omega) hpast₃]
    exact ih _ hitems (by omega) hpast₄ (by omega)

theorem Rules.Complete.parse (hR : R.Complete n) {x : ι} {l : List ι}
    (ht : t.isOperator k.opening = true) (hitem : Derives strtod true (R.item x) ts as)
    (hitems : Derives strtod true (R.items l) us bs) (hn : ts.length + us.length ≤ n)
    (hpast : Past (t :: (ts ++ us)) (as ++ bs) c c') :
    k.parse c = some (some (k.wrap (l.foldl R.put (R.put k.empty x))), c') := by
  obtain ⟨c₁, hpast₁, hpast₂⟩ := hpast.uncons
  obtain ⟨c₂, hpast₃, hpast₄⟩ := hpast₂.split
  obtain ⟨htokens, heq⟩ := hpast₁.eq_pop
  obtain ⟨u, ts', rfl, hu⟩ := hR.head hitem
  have husne : 0 < us.length := length_pos_iff.mpr hitems.ne_nil
  have hfuel : us.length ≤ c₂.tokens.length + 1 := by
    rw [hpast₄.tokens, length_append]
    omega
  have hrest : c₁.tokens = u :: (ts' ++ us ++ c'.tokens) := by rw [hpast₂.tokens]; rfl
  rw [Brackets.parse, htokens]
  simp only [ht, if_true, hrest, hu, Bool.false_eq_true, if_false]
  rw [← hrest, ← heq, hR.item hitem (by omega) hpast₃, attempt,
    hR.loop _ hitems (by omega) hpast₄ hfuel]
  rfl

end

/-- `parse_value` finds the values that are derived by less than `n` tokens. -/
def Complete (strtod : List UInt8 → UInt64) (value : Parsing → Parsed Value) (n : ℕ) : Prop :=
  ∀ {v ts args c c'}, Derives strtod true (.value v) ts args → ts.length < n → Past ts args c c' →
    value c = some (some v, c')

variable {n : ℕ}

/-- A value does not begin with a closing token or a separator. -/
theorem Derives.head_ne {op : Char}
    (h : Derives strtod skip (.value v) (t :: ts) args) (hbrace : chr '\x7b' ≠ chr op)
    (hbracket : chr '[' ≠ chr op) : t.isOperator op = false := by
  cases h with
  | token h => exact isOperator_false (tokenValue_type h).1 op
  | escape ht h | skipped hskip ht h hu =>
    exact isOperator_false (by simp [isKnownEscape_type ht]) op
  | emptyObject ht hu => exact isOperator_ne ht hbrace
  | object ht hpair hpairs => exact isOperator_ne ht hbrace
  | emptyArray ht hu => exact isOperator_ne ht hbracket
  | array ht hvalue helems => exact isOperator_ne ht hbracket

theorem Derives.exists_head (op : Char) (h : Derives strtod skip (.value v) ts args)
    (hbrace : chr '\x7b' ≠ chr op) (hbracket : chr '[' ≠ chr op) :
    ∃ u us, ts = u :: us ∧ u.isOperator op = false := by
  obtain ⟨u, us, rfl⟩ := exists_cons_of_ne_nil h.ne_nil
  exact ⟨u, us, rfl, h.head_ne hbrace hbracket⟩

theorem Complete.objects (hv : Complete strtod value n) :
    (objectRules strtod value).Complete n where
  item {d e ts args c c'} h hn hpast := by
    cases h with
    | @pair t _ _ ts us as bs hkey ht hvalue =>
      rw [length_append, length_cons] at hn
      obtain ⟨c₁, hpast₁, hpast₂⟩ := hpast.split
      obtain ⟨htokens, hap, herr⟩ := hpast₂
      have hpast₂ : Past us bs { c₁ with tokens := us ++ c'.tokens } c' := ⟨rfl, hap, herr⟩
      obtain ⟨u, us', hcons⟩ : ∃ u us', c.tokens = u :: us' := by
        rw [hpast₁.tokens]
        exact exists_cons_of_ne_nil (by simp [hkey.ne_nil])
      show parsePair value d c = _
      rw [parsePair, hcons]
      simp only [hv hkey (by omega) hpast₁, attempt]
      rw [htokens]
      simp only [cons_append, ht, if_true, hv hvalue (by omega) hpast₂]
      rfl
  head h := by
    cases h with
    | @pair t _ _ ts us as bs hkey ht hvalue =>
      obtain ⟨u, ts', rfl, hu⟩ := hkey.exists_head '\x7d' (by decide) (by decide)
      exact ⟨u, ts' ++ t :: us, rfl, hu⟩
  comma := show chr ',' ≠ chr '\x7d' by decide

theorem Complete.arrays (hv : Complete strtod value n) : (arrayRules strtod value).Complete n where
  item {l v ts args c c'} h hn hpast := by
    show attempt (value c) _ _ = _
    rw [hv h hn hpast]
    rfl
  head h := h.exists_head ']' (by decide) (by decide)
  comma := show chr ',' ≠ chr ']' by decide

/-- A token that is no operator is left to the rules for single tokens. -/
theorem parseValue_single (n : ℕ) (htokens : c.tokens = t :: rest)
    (htype : t.type ≠ .jsonOperator) :
    parseValue strtod (n + 1) c = singles strtod c := by
  rw [parseValue_succ, Brackets.parse_of_ne htokens (isOperator_false htype _)]
  show orElse ((arrays (parseValue strtod n)).parse c) (singles strtod) = _
  rw [Brackets.parse_of_ne htokens (isOperator_false htype _)]
  rfl

theorem singles_token (h : tokenValue strtod t = some v)
    (hpast : Past [t] [] c c') : singles strtod c = some (some v, c') := by
  obtain ⟨htokens, heq⟩ := hpast.eq_pop
  rw [singles, parseEscape_of_type htokens (tokenValue_type h).2]
  exact (parseToken_eq_some_iff htokens).mpr ⟨h, heq⟩

theorem parseEscape_eq {a : Arg} {r : Option Value}
    (ht : t.isKnownEscape = true) (h : escapeArg t a = some r) (hpast : Past [t] [a] c c') :
    parseEscape c = some (r, c') := by
  obtain ⟨tokens, ap, err⟩ := c
  obtain ⟨tokens', ap', err'⟩ := c'
  obtain ⟨rfl, hap, rfl⟩ := hpast
  cases hap with
  | list _ rest => simp [parseEscape, ht, h]

theorem parseValue_bracket (htokens : c.tokens = t :: rest) (ht : t.isOperator '[' = true)
    (h : (arrays (parseValue strtod n)).parse c = some (some v, c')) :
    parseValue strtod (n + 1) c = some (some v, c') := by
  rw [parseValue_succ, Brackets.parse_of_ne (k := objects _) htokens
    (isOperator_ne ht (show _ ≠ chr '\x7b' by decide))]
  show orElse ((arrays (parseValue strtod n)).parse c) (singles strtod) = _
  rw [h]
  rfl

theorem Brackets.parse_empty {α : Type} {k : Brackets α} {u : Token}
    (ht : t.isOperator k.opening = true) (hu : u.isOperator k.closing = true)
    (hpast : Past [t, u] [] c c') :
    k.parse c = some (some (k.wrap k.empty), c') := by
  rw [Brackets.parse, hpast.tokens]
  simp only [cons_append, ht, hu, if_true]
  rw [nil_append, ← hpast.eq_of_nil]

/-- **What is derived is accepted.** -/
theorem parseValue_complete (n : ℕ) : Complete strtod (parseValue strtod n) n := by
  induction n with
  | zero =>
    intro v ts args c c' _ hn _
    cases hn
  | succ n ih =>
    intro v ts args c c' h hn hpast
    cases h with
    | @token t _ h =>
      rw [parseValue_single n hpast.tokens (tokenValue_type h).1]
      exact singles_token h hpast
    | @escape t a _ ht h =>
      rw [parseValue_single n hpast.tokens (by simp [isKnownEscape_type ht]), singles,
        parseEscape_eq ht h hpast]
      rfl
    | @skipped t u a _ _ ht h hu =>
      have hpast' : Past ([t] ++ [u]) ([a] ++ []) c c' := hpast
      obtain ⟨c₁, hpast₁, hpast₂⟩ := hpast'.split
      rw [parseValue_single n hpast.tokens (by simp [isKnownEscape_type ht]), singles,
        parseEscape_eq ht h hpast₁]
      obtain ⟨htokens, heq⟩ := hpast₂.eq_pop
      exact (parseToken_eq_some_iff htokens).mpr ⟨hu, heq⟩
    | emptyObject ht hu =>
      rw [parseValue_succ, Brackets.parse_empty (k := objects _) ht hu hpast]
      rfl
    | object ht hpair hpairs =>
      rw [length_cons, length_append] at hn
      rw [parseValue_succ, ih.objects.parse (x := (_, _)) ht hpair hpairs (by omega) hpast]
      rfl
    | emptyArray ht hu =>
      exact parseValue_bracket hpast.tokens ht (Brackets.parse_empty (k := arrays _) ht hu hpast)
    | array ht hvalue helems =>
      rw [length_cons, length_append] at hn
      refine parseValue_bracket hpast.tokens ht
        ((ih.arrays.parse ht hvalue helems (by omega) hpast).trans ?_)
      exact congrArg (fun l => some (some (Value.qlist l), c')) (foldl_elems _ _)

/-- **The parser accepts exactly the extended grammar.** -/
theorem parseValue_eq_some_iff {n : ℕ} (hn : c.tokens.length < n) :
    parseValue strtod n c = some (some v, c') ↔ Reads strtod true (.value v) c c' := by
  constructor
  · exact parseValue_sound n c v c'
  · rintro ⟨ts, args, hder, hpast⟩
    refine parseValue_complete n hder ?_ hpast
    rw [hpast.tokens, length_append] at hn
    omega

/-! ### Arguments that are `NULL` -/

theorem escapeArg_eq_none_iff {a : Arg} :
    escapeArg t a = some none ↔ t.isEscape "%p" = true ∧ a = .object none := by
  by_cases hp : t.isEscape "%p" = true
  · rw [escapeArg.eq_def, if_pos hp]
    cases a <;> simp [hp]
  · rw [escapeArg.eq_def, if_neg hp]
    constructor
    · intro h
      split_ifs at h <;> split at h <;> cases h
    · exact fun h => absurd h.1 hp

theorem Derives.mono {s : Sym} (h : Derives strtod false s ts args) :
    Derives strtod true s ts args := by
  induction h with
  | token h => exact .token h
  | escape ht h => exact .escape ht h
  | skipped hskip ht h hu => cases hskip
  | emptyObject ht hu => exact .emptyObject ht hu
  | object ht _ _ ihpair ihpairs => exact .object ht ihpair ihpairs
  | pair _ ht _ ihkey ihvalue => exact .pair ihkey ht ihvalue
  | noPairs ht => exact .noPairs ht
  | pairs ht _ _ ihpair ihpairs => exact .pairs ht ihpair ihpairs
  | emptyArray ht hu => exact .emptyArray ht hu
  | array ht _ _ ihvalue ihelems => exact .array ht ihvalue ihelems
  | noElems ht => exact .noElems ht
  | elems ht _ _ ihvalue ihelems => exact .elems ht ihvalue ihelems

/-- The grammar has no place for `NULL`. -/
theorem Derives.null_notMem {s : Sym} (h : Derives strtod false s ts args) :
    Arg.object none ∉ args := by
  induction h with
  | token h | emptyObject ht hu | noPairs ht | emptyArray ht hu | noElems ht => simp
  | @escape t a v ht h =>
    intro hmem
    obtain rfl := mem_singleton.mp hmem
    rw [escapeArg.eq_def] at h
    split_ifs at h
    cases h
  | skipped hskip ht h hu => cases hskip
  | object ht _ _ ihpair ihpairs => simp [ihpair, ihpairs]
  | pair _ ht _ ihkey ihvalue => simp [ihkey, ihvalue]
  | pairs ht _ _ ihpair ihpairs => simp [ihpair, ihpairs]
  | array ht _ _ ihvalue ihelems => simp [ihvalue, ihelems]
  | elems ht _ _ ihvalue ihelems => simp [ihvalue, ihelems]

/-- A derivation of the extended grammar without `NULL` is one of the grammar. -/
theorem Derives.of_null_notMem {s : Sym}
    (h : Derives strtod true s ts args) (hnull : Arg.object none ∉ args) :
    Derives strtod false s ts args := by
  induction h with
  | token h => exact .token h
  | escape ht h => exact .escape ht h
  | skipped hskip ht h hu =>
    rw [(escapeArg_eq_none_iff.mp h).2] at hnull
    exact absurd (mem_singleton_self _) hnull
  | emptyObject ht hu => exact .emptyObject ht hu
  | object ht _ _ ihpair ihpairs =>
    rw [mem_append, not_or] at hnull
    exact .object ht (ihpair hnull.1) (ihpairs hnull.2)
  | pair _ ht _ ihkey ihvalue =>
    rw [mem_append, not_or] at hnull
    exact .pair (ihkey hnull.1) ht (ihvalue hnull.2)
  | noPairs ht => exact .noPairs ht
  | pairs ht _ _ ihpair ihpairs =>
    rw [mem_append, not_or] at hnull
    exact .pairs ht (ihpair hnull.1) (ihpairs hnull.2)
  | emptyArray ht hu => exact .emptyArray ht hu
  | array ht _ _ ihvalue ihelems =>
    rw [mem_append, not_or] at hnull
    exact .array ht (ihvalue hnull.1) (ihelems hnull.2)
  | noElems ht => exact .noElems ht
  | elems ht _ _ ihvalue ihelems =>
    rw [mem_append, not_or] at hnull
    exact .elems ht (ihvalue hnull.1) (ihelems hnull.2)

/-- The arguments that were taken can be read off. -/
theorem Takes.args_unique {ap ap' : Option (List Arg)} (h : Takes ap as ap')
    (h' : Takes ap bs ap') : as = bs := by
  cases h with
  | null =>
    cases h'
    rfl
  | list _ rest =>
    generalize hl : as ++ rest = l at h'
    cases h' with
    | list _ _ => exact append_cancel_right hl

/-! ### Failures -/

/-- A string with an escape that is invalid. -/
def Token.isBadString (t : Token) : Prop :=
  t.type = .jsonString ∧ ∃ e, qstringFromEscapedStr t.token = some (.error e)

/-- What a failed rule for a keyword or a literal does to the token list. -/
theorem parseToken_fail
    (h : orElse (parseKeyword c) (parseLiteral strtod) = some (none, c')) :
    c'.tokens = c.tokens ∨ ∃ t, c.tokens = t :: c'.tokens ∧ t.isBadString := by
  rcases attempt_eq_some.mp h with ⟨w, hkeyword, hliteral⟩ | ⟨v, w, -, hok⟩
  · have hw : w.tokens = c.tokens := by
      rw [parseKeyword] at hkeyword
      split at hkeyword
      · cases hkeyword
        rfl
      · split_ifs at hkeyword <;> cases hkeyword <;> rfl
    rw [parseLiteral, hw] at hliteral
    split at hliteral
    · cases hliteral
      exact .inl hw
    · rename_i t rest htokens
      split at hliteral
      · rename_i htype
        split at hliteral
        · cases hliteral
        · cases hliteral
        · rename_i e htext
          cases hliteral
          exact .inr ⟨t, htokens, htype, e, htext⟩
      · cases hliteral
      · cases hliteral
      · cases hliteral
        exact .inl hw
  · cases hok

/-- What a failed `parse_value` does to the token list. -/
theorem parseValue_fail {n : ℕ} (h : parseValue strtod n c = some (none, c')) :
    c'.tokens = c.tokens ∨ (∃ t rest, c.tokens = t :: rest ∧ t.isBadString) ∨
      ∃ t rest a args, c.tokens = t :: rest ∧ c.ap = some (a :: args) ∧ t.isKnownEscape = true ∧
        escapeArg t a = some none := by
  cases n with
  | zero => cases h
  | succ n =>
    rw [parseValue_succ] at h
    rcases attempt_eq_some.mp h with ⟨w, hobject, hrest⟩ | ⟨v, w, -, hok⟩
    · rcases Brackets.parse_fail hobject with rfl | ⟨t, rest, htokens, ht, hw⟩
      · rcases attempt_eq_some.mp hrest with ⟨w', harray, hsingles⟩ | ⟨v, w', -, hok⟩
        · rcases Brackets.parse_fail harray with rfl | ⟨t, rest, htokens, ht, hw⟩
          · rcases attempt_eq_some.mp hsingles with ⟨w, hescape, htoken⟩ | ⟨v, w, -, hok⟩
            · rcases parseEscape_cases hescape with
                ⟨-, rfl⟩ | ⟨t, rest, a, args, htokens, hap, ht, harg, -⟩
              · rcases parseToken_fail htoken with heq | ⟨t, htokens, ht⟩
                · exact .inl heq
                · exact .inr (.inl ⟨t, _, htokens, ht⟩)
              · exact .inr (.inr ⟨t, rest, a, args, htokens, hap, ht, harg⟩)
            · cases hok
          · rw [singles_operator (hw.trans htokens) (isOperator_type ht)] at hsingles
            cases hsingles
            exact .inl hw
        · cases hok
      · rw [parseValue_of_brace htokens ht hw] at hrest
        cases hrest
        exact .inl hw
    · cases hok

/-- The rules for keywords and literals have no defined result for an empty string token only. -/
theorem parseToken_eq_none
    (h : orElse (parseKeyword c) (parseLiteral strtod) = none) :
    ∃ t rest, c.tokens = t :: rest ∧ t.type = .jsonString ∧ t.token = [] := by
  cases htokens : c.tokens with
  | nil => simp [parseKeyword, parseLiteral, orElse, attempt, htokens] at h
  | cons t rest =>
    refine ⟨t, rest, rfl, ?_⟩
    by_cases htype : t.type = .jsonKeyword
    · simp only [parseKeyword, htokens, htype, ne_eq, not_true_eq_false, if_false] at h
      split_ifs at h
      · cases h
      · cases h
      · simp [orElse, attempt, parseLiteral, Parsing.error, htokens, htype] at h
    · rw [parseKeyword_of_type htokens htype] at h
      change parseLiteral strtod c = none at h
      rw [parseLiteral, htokens] at h
      dsimp only at h
      split at h
      · rename_i hstring
        refine ⟨hstring, ?_⟩
        cases htext : t.token with
        | nil => rfl
        | cons ch l =>
          rw [htext, qstringFromEscapedStr] at h
          split at h <;> simp_all
      all_goals cases h

/-- The condition under which the parser keeps to its grammar.

* `text` — the first token is no string with an invalid escape
* `null` — the first token is no `%p` with the argument `NULL`; behind it an empty string token
  would leave no defined result
* `skips` — no prefix becomes a value by leaving out a `%p` with the argument `NULL` -/
structure Clean (strtod : List UInt8 → UInt64) (tokens : List Token) (ap : Option (List Arg)) :
    Prop where
  text : ∀ t rest, tokens = t :: rest → ¬t.isBadString
  null : ∀ t rest args, tokens = t :: rest → ap = some (.object none :: args) →
    t.isEscape "%p" = true → ∃ u rest', rest = u :: rest' ∧ u.type = .jsonString ∧ u.token = []
  skips : ∀ v ts args rest ap', tokens = ts ++ rest → Takes ap args ap' →
    Derives strtod true (.value v) ts args → Arg.object none ∉ args

/-- The parser takes the first `%p` with the argument `NULL`, and goes on behind it. -/
theorem parseValue_null (n : ℕ) (htokens : c.tokens = t :: rest)
    (hap : c.ap = some (.object none :: args)) (ht : t.isEscape "%p" = true) :
    parseValue strtod (n + 1) c =
      orElse (parseKeyword { c with tokens := rest, ap := some args }) (parseLiteral strtod) := by
  have hknown : t.isKnownEscape = true := by simp [Token.isKnownEscape, ht]
  have hpast : Past [t] [.object none] c { c with tokens := rest, ap := some args } :=
    ⟨htokens, hap ▸ Takes.list [.object none] args, rfl⟩
  rw [parseValue_single n htokens (by simp [isKnownEscape_type hknown]), singles,
    parseEscape_eq hknown (escapeArg_eq_none_iff.mpr ⟨ht, rfl⟩) hpast]
  rfl

/-- The value of a key is that of the last pair with this key. -/
theorem qdictGet_putPairs (d l : Dict) (key : List UInt8) :
    qdictGet (putPairs d l) key = (qdictGet l.reverse key).or (qdictGet d key) := by
  induction l generalizing d with
  | nil => rfl
  | cons e l ih =>
    have hput : qdictGet (qdictPutObj d e.1 e.2) key =
        if e.1 = key then some e.2 else qdictGet d key := QDict.getEntry_putEntry ..
    have happend : qdictGet (l.reverse ++ [e]) key =
        (qdictGet l.reverse key).or (qdictGet [e] key) := Entries.get_append ..
    have hsingle : qdictGet [e] key = if e.1 = key then some e.2 else none := Entries.get_cons ..
    rw [putPairs, foldl_cons, ← putPairs, ih, hput, reverse_cons, happend, hsingle, Option.or_assoc]
    congr 1
    split_ifs <;> rfl

/-- The parser keeps to its grammar.

* `value` — `json_parser_parse` returns the values that a prefix of the tokens derives
* `fail` — if `parse_value` fails, the token list of its caller is as before -/
structure Exact (strtod : List UInt8 → UInt64) (tokens : List Token) (ap : Option (List Arg)) :
    Prop where
  value : ∀ v c', jsonParserParse strtod (some tokens) ap = some (some v, c') ↔
    Reads strtod false (.value v) ⟨tokens, ap, none⟩ c'
  fail : ∀ err c', parseValue strtod (tokens.length + 1) ⟨tokens, ap, err⟩ = some (none, c') →
    c'.tokens = tokens

variable {tokens : List Token} {ap : Option (List Arg)}

theorem jsonParserParse_eq_some_iff :
    jsonParserParse strtod (some tokens) ap = some (some v, c') ↔
      Reads strtod true (.value v) ⟨tokens, ap, none⟩ c' :=
  parseValue_eq_some_iff (Nat.lt_succ_self tokens.length)

theorem Exact.skips (h : Exact strtod tokens ap) {ap' : Option (List Arg)}
    (htokens : tokens = ts ++ rest) (hap : Takes ap args ap')
    (hder : Derives strtod true (.value v) ts args) :
    Arg.object none ∉ args := by
  have hpast : Past ts args ⟨tokens, ap, none⟩ ⟨rest, ap', none⟩ := ⟨htokens, hap, rfl⟩
  have hparse := jsonParserParse_eq_some_iff.mpr ⟨ts, args, hder, hpast⟩
  obtain ⟨ts', args', hder', hpast'⟩ := (h.value v _).mp hparse
  rw [hap.args_unique hpast'.ap]
  exact hder'.null_notMem

theorem Exact.text (h : Exact strtod tokens ap) (htokens : tokens = t :: rest) :
    ¬t.isBadString := by
  rintro ⟨htype, e, he⟩
  have hparse : parseValue strtod (tokens.length + 1) ⟨tokens, ap, none⟩ =
      some (none, ⟨rest, ap, some e⟩) := by
    rw [parseValue_single _ htokens (by simp [htype]), singles,
      parseEscape_of_type htokens (by simp [htype])]
    show orElse (parseKeyword _) _ = _
    rw [parseKeyword_of_type htokens (by simp [htype])]
    show parseLiteral strtod _ = _
    simp [parseLiteral, htokens, htype, he, Parsing.error]
  have hrest : rest = tokens := h.fail none _ hparse
  rw [← hrest] at htokens
  exact absurd htokens (cons_ne_self t rest).symm

theorem Exact.null (h : Exact strtod tokens ap)
    (htokens : tokens = t :: rest) (hap : ap = some (.object none :: args))
    (ht : t.isEscape "%p" = true) :
    ∃ u rest', rest = u :: rest' ∧ u.type = .jsonString ∧ u.token = [] := by
  have hnull : parseValue strtod (tokens.length + 1) ⟨tokens, ap, none⟩ =
      orElse (parseKeyword ⟨rest, some args, none⟩) (parseLiteral strtod) :=
    parseValue_null tokens.length htokens hap ht
  rcases hresult : orElse (parseKeyword ⟨rest, some args, none⟩) (parseLiteral strtod) with
    _ | ⟨_ | v, c'⟩
  · exact parseToken_eq_none hresult
  · have hrest : c'.tokens = tokens := h.fail none c' (hnull.trans hresult)
    rw [htokens] at hrest
    rcases parseToken_fail hresult with heq | ⟨u, heq, -⟩
    · rw [hrest] at heq
      exact absurd heq (cons_ne_self t rest)
    · have hlen := congrArg List.length heq
      rw [hrest, length_cons, length_cons] at hlen
      dsimp only at hlen
      omega
  · obtain ⟨u, hu, hpast⟩ := parseToken_sound hresult
    have hder : Derives strtod true (.value v) [t, u] [.object none] :=
      .skipped rfl (by simp [Token.isKnownEscape, ht]) (escapeArg_eq_none_iff.mpr ⟨ht, rfl⟩) hu
    have hsplit : tokens = [t, u] ++ c'.tokens := by
      rw [htokens, show rest = u :: c'.tokens from hpast.tokens]
      rfl
    have htakes : Takes ap [.object none] (some args) := hap ▸ Takes.list [.object none] args
    exact absurd (mem_singleton_self _) (h.skips hsplit htakes hder)

theorem Clean.exact (h : Clean strtod tokens ap) : Exact strtod tokens ap where
  value v c' := by
    rw [jsonParserParse_eq_some_iff]
    constructor
    · rintro ⟨ts, args, hder, hpast⟩
      have hnull := h.skips v ts args _ _ hpast.tokens hpast.ap hder
      exact ⟨ts, args, hder.of_null_notMem hnull, hpast⟩
    · rintro ⟨ts, args, hder, hpast⟩
      exact ⟨ts, args, hder.mono, hpast⟩
  fail err c' hfail := by
    rcases parseValue_fail hfail with
      heq | ⟨t, rest, htokens, hbad⟩ | ⟨t, rest, a, args, htokens, hap, -, ha⟩
    · exact heq
    · exact absurd hbad (h.text t rest htokens)
    · obtain ⟨ht, rfl⟩ := escapeArg_eq_none_iff.mp ha
      obtain ⟨u, rest', rfl, hu, hempty⟩ := h.null t rest args htokens hap ht
      rw [parseValue_null _ htokens hap ht, parseKeyword_of_type rfl (by simp [hu])] at hfail
      change parseLiteral strtod ⟨u :: rest', some args, err⟩ = _ at hfail
      simp [parseLiteral, hu, hempty, qstringFromEscapedStr] at hfail

/-- A rule that fails keeps the token list of its caller. -/
def Keeps {α : Type} (rule : Parsing → Parsed α) : Prop :=
  ∀ c w, rule c = some (none, w) → w.tokens = c.tokens

theorem Brackets.parse_keeps {α : Type} (k : Brackets α) : Keeps k.parse := by
  intro c w h
  rcases parse_fail h with rfl | ⟨t, rest, -, -, hw⟩
  · rfl
  · exact hw

end VariabilityTestbed.Json
