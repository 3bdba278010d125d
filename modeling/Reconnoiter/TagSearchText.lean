import Reconnoiter.TagSearch

/-! The text of tag searches: the parser and the printer of
`noit_metric_tag_search.c`. The printer writes each pattern bare, behind the
name of its matcher in brackets. -/

namespace Reconnoiter

inductive MatcherImpl where
  | default
  | exact
  | re
  | graphite
  | registered (name : Bytes)
  deriving DecidableEq

def MatcherImpl.implName : MatcherImpl → Bytes
  | .default => [100, 101, 102, 97, 117, 108, 116]
  | .exact => [101, 120, 97, 99, 116]
  | .re => [114, 101]
  | .graphite => [103, 114, 97, 112, 104, 105, 116, 101]
  | .registered name => name

def builtinImpls : List MatcherImpl := [.default, .exact, .re, .graphite]

/-- What the parser takes from elsewhere: base64, the registered matchers, and
which patterns a matcher's `init` and `compile` accept. -/
structure SearchEnv where
  b64 : Base64
  matchers : List Bytes
  init : MatcherImpl → Bytes → Bool
  compile : MatcherImpl → Bytes → Bool
  matchers_bracket : ∀ name ∈ matchers, (93 : UInt8) ∉ name
  matchers_builtin : ∀ impl ∈ builtinImpls, impl.implName ∉ matchers

def SearchEnv.matcherImpl (e : SearchEnv) (name : Bytes) : MatcherImpl :=
  if name ∈ e.matchers then .registered name
  else if name = MatcherImpl.default.implName then .default
  else if name = MatcherImpl.exact.implName then .exact
  else if name = MatcherImpl.re.implName then .re
  else if name = MatcherImpl.graphite.implName then .graphite
  else .exact

structure VarPattern where
  impl : MatcherImpl
  str : Bytes
  deriving DecidableEq

structure TagPattern where
  cat : VarPattern
  name : Option VarPattern
  deriving DecidableEq

inductive MatchPart where
  | cat
  | name
  deriving DecidableEq

def expect (c : UInt8) : Bytes → Option Bytes
  | [] => none
  | d :: s => if d = c then some s else none

def regexBody : Bytes → Option (Bytes × Bytes)
  | [] => none
  | [c] => if c = 47 then some ([], []) else none
  | c :: d :: s =>
    if c = 47 then some ([], d :: s)
    else if c = 92 then (regexBody s).map fun r => (c :: d :: r.1, r.2)
    else (regexBody (d :: s)).map fun r => (c :: r.1, r.2)

def quotedBody : Bytes → Option (Bytes × Bytes)
  | [] => none
  | [c] => if c = 34 then some ([], []) else none
  | c :: d :: s =>
    if c = 34 then some ([], d :: s)
    else if c = 92 then
      if d = 92 ∨ d = 34 then (quotedBody s).map fun r => (c :: d :: r.1, r.2) else none
    else (quotedBody (d :: s)).map fun r => (c :: r.1, r.2)

def unescape (mark : UInt8) : Bytes → Bytes
  | [] => []
  | [c] => [c]
  | c :: d :: s =>
    if c = 92 ∧ (d = mark ∨ d = 92) then d :: unescape mark s else c :: unescape mark (d :: s)

def unescapeRegex (s : Bytes) : Bytes := unescape 47 s

def unescapeTagString (s : Bytes) : Bytes := unescape 34 s

structure MatchHead where
  impl : Option MatcherImpl
  isEncodedMatch : Bool
  isEncoded : Bool
  query : Bytes

def matchHead (e : SearchEnv) (query : Bytes) : Option MatchHead :=
  let isEncodedMatch := List.isPrefixOf [98, 33] query
  let isEncoded := isEncodedMatch || b64Open.isPrefixOf query || List.isPrefixOf [98, 47] query
  let isAlt := List.isPrefixOf [98, 91] query || List.isPrefixOf [91] query
  if isAlt then
    let isEncoded := List.isPrefixOf [98] query || isEncoded
    if 93 ∈ query then
      let impl := e.matcherImpl ((upTo 93 query).drop (1 + isEncoded.toNat))
      some ⟨some impl, isEncodedMatch, isEncoded, after 93 query⟩
    else none
  else if isEncoded then
    some ⟨if isEncodedMatch then some .exact else none, isEncodedMatch, true, query.drop 1⟩
  else some ⟨none, false, false, query⟩

def endsRegex (part : MatchPart) (c : UInt8) : Bool :=
  c == 44 || c == 41 || (part == .cat && c == 58)

def MatchHead.regex (part : MatchPart) (head : MatchHead) : Option (Bytes × Bytes) :=
  if head.impl.isSome then none
  else do
    let r ← regexBody (← expect 47 head.query)
    if r.2.head?.any (endsRegex part) then return r else none

def regexText (e : SearchEnv) (head : MatchHead) (body : Bytes) : Option Bytes :=
  if head.isEncoded then
    match e.b64.decode body with
    | none => none
    | some x => if x = [] then none else some (upTo 0 x)
  else some (unescapeRegex body)

def inPattern : MatchPart → UInt8 → Bool
  | .cat, c => isTaggableKey [c] || c == 42 || c == 63
  | .name, c => isTaggableValue [c] || c == 42 || c == 63

def encodedText (e : SearchEnv) (part : MatchPart) (mark : UInt8) (query : Bytes) :
    Option (Bytes × Bytes) := do
  let s ← expect mark query
  let text := s.takeWhile isTaggableB64Char
  if text = [] ∧ part = .cat then none
  else
    let x ← e.b64.decode text
    if x = [] ∧ part = .cat then none
    else return (upTo 0 x, ← expect mark (s.drop text.length))

def quotedText (part : MatchPart) (s : Bytes) : Option (Bytes × Bytes) := do
  let r ← quotedBody s
  if r.1 = [] ∧ part = .cat then none else return (unescapeTagString r.1, r.2)

def bareText (part : MatchPart) (s : Bytes) : Option (Bytes × Bytes) :=
  let str := s.takeWhile (inPattern part)
  if str = [] ∧ part = .cat then none else some (str, s.drop str.length)

def literalText (part : MatchPart) (query : Bytes) : Option (Bytes × Bytes) :=
  match expect 34 query with
  | some s => quotedText part s
  | none => bareText part query

def patternText (e : SearchEnv) (part : MatchPart) (head : MatchHead) : Option (Bytes × Bytes) :=
  if head.isEncoded then encodedText e part (if head.isEncodedMatch then 33 else 34) head.query
  else literalText part head.query

def initPattern (e : SearchEnv) (impl : MatcherImpl) (str rest : Bytes) :
    Option (VarPattern × Bytes) :=
  if e.init impl str then some (⟨impl, str⟩, rest) else none

/-- `noit_metric_tag_match_init`: a pattern and the text after it. -/
def matchInit (e : SearchEnv) (part : MatchPart) (query : Bytes) : Option (VarPattern × Bytes) := do
  let head ← matchHead e query
  match head.regex part with
  | some (body, rest) => initPattern e .re (← regexText e head body) rest
  | none =>
    let (str, rest) ← patternText e part head
    initPattern e (head.impl.getD (if 42 ∈ str ∨ 63 ∈ str then .default else .exact)) str rest

def matchParse (e : SearchEnv) (query : Bytes) : Option (TagPattern × Bytes) := do
  let (cat, rest) ← matchInit e .cat query
  match expect 58 rest with
  | some s =>
    let (name, rest) ← matchInit e .name s
    return (⟨cat, some name⟩, rest)
  | none => return (⟨cat, none⟩, rest)

inductive SearchOp where
  | and
  | or
  | hint
  | not
  deriving DecidableEq

def SearchOp.text : SearchOp → Bytes
  | .and => [97, 110, 100, 40]
  | .or => [111, 114, 40]
  | .hint => [104, 105, 110, 116, 40]
  | .not => [110, 111, 116, 40]

def openedOp (query : Bytes) : Option (SearchOp × Bytes) :=
  [SearchOp.and, .or, .hint, .not].findSome? fun op =>
    if op.text.isPrefixOf query then some (op, query.drop op.text.length) else none

mutual

/-- `noit_metric_tag_part_parse`, with a bound on the depth of its recursion. -/
def partParse (e : SearchEnv) : Nat → Bytes → Bool → Option (SearchAst TagPattern × Bytes)
  | 0, _, _ => none
  | n + 1, query, allowMatch =>
    match openedOp (query.dropWhile isSpace) with
    | some (.and, s) => (argsParse e n s).map fun r => (.and r.1, r.2)
    | some (.or, s) => (argsParse e n s).map fun r => (.or r.1, r.2)
    | some (.hint, s) =>
      match argsParse e n s with
      | some (arg :: hints, rest) => some (.hint arg hints, rest)
      | _ => none
    | some (.not, s) =>
      -- Unlike the other operators, blanks after the argument are not skipped.
      match partParse e n (s.dropWhile isSpace) true with
      | some (arg, rest) => (expect 41 rest).map fun rest => (.not arg, rest)
      | none => none
    | none => if allowMatch then (matchParse e query).map fun r => (.spec r.1, r.2) else none

def argsParse (e : SearchEnv) : Nat → Bytes → Option (List (SearchAst TagPattern) × Bytes)
  | 0, _ => none
  | n + 1, query =>
    match partParse e n (query.dropWhile isSpace) true with
    | none => none
    | some (arg, rest) =>
      match expect 44 (rest.dropWhile isSpace) with
      | some s => (argsParse e n s).map fun r => (arg :: r.1, r.2)
      | none => (expect 41 (rest.dropWhile isSpace)).map fun s => ([arg], s)

end

mutual

def SearchAst.leaves {α : Type} : SearchAst α → List α
  | .spec leaf => [leaf]
  | .not arg => arg.leaves
  | .and args => argLeaves args
  | .or args => argLeaves args
  | .hint arg hints => arg.leaves ++ argLeaves hints

def SearchAst.argLeaves {α : Type} : List (SearchAst α) → List α
  | [] => []
  | arg :: args => arg.leaves ++ argLeaves args

end

def TagPattern.patterns (m : TagPattern) : List VarPattern := m.cat :: m.name.toList

def searchCompile (e : SearchEnv) (a : SearchAst TagPattern) : Bool :=
  a.leaves.all fun m => m.patterns.all fun p => e.compile p.impl p.str

/-- `noit_metric_tag_search_parse`; the recursion is not deeper than the query is long. -/
def searchParse (e : SearchEnv) (query : Bytes) : Option (SearchAst TagPattern) := do
  let (a, rest) ← partParse e (query.length + 1) query false
  if rest = [] ∧ searchCompile e a then return a else none

def VarPattern.text (p : VarPattern) : Bytes := 91 :: p.impl.implName ++ 93 :: p.str

def TagPattern.text (m : TagPattern) : Bytes :=
  m.cat.text ++ (match m.name with | some p => 58 :: p.text | none => [])

def unparseLimit : Nat := 1000

mutual

/-- `noit_metric_tag_search_unparse_part` with no limit on the size. -/
def unparsePart : Nat → SearchAst TagPattern → Option Bytes
  | level, .spec m => if unparseLimit ≤ level then none else some m.text
  | level, .not arg =>
    if unparseLimit ≤ level then none
    else do return SearchOp.not.text ++ (← unparsePart (level + 1) arg) ++ [41]
  | level, .and args =>
    if unparseLimit ≤ level then none
    else do return SearchOp.and.text ++ (← unparseArgs (level + 1) args) ++ [41]
  | level, .or args =>
    if unparseLimit ≤ level then none
    else do return SearchOp.or.text ++ (← unparseArgs (level + 1) args) ++ [41]
  | level, .hint arg hints =>
    if unparseLimit ≤ level then none
    else do
      let args := (← unparsePart (level + 1) arg) ++ (← unparseMore (level + 1) hints)
      return SearchOp.hint.text ++ args ++ [41]

def unparseArgs : Nat → List (SearchAst TagPattern) → Option Bytes
  | _, [] => some []
  | level, arg :: args => do return (← unparsePart level arg) ++ (← unparseMore level args)

def unparseMore : Nat → List (SearchAst TagPattern) → Option Bytes
  | _, [] => some []
  | level, arg :: args => do return 44 :: ((← unparsePart level arg) ++ (← unparseMore level args))

end

def unparse (a : SearchAst TagPattern) : Option Bytes := unparsePart 0 a

end Reconnoiter
