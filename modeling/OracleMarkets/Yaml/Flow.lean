import OracleMarkets.Yaml.Cursor

/-!
# Scalars that flow

Scalars in quotes and scalars without quotes go over line breaks, which are folded.  A scalar in
double quotes has escapes; in single quotes only the quote itself is escaped, by doubling it.
-/

namespace OracleMarkets.Yaml

/-! ## Quoted scalars -/

def readCode? (n : Nat) (c : Cursor) : Option (Char × Cursor) := do
  let digits := c.rest.take n
  let code ← digits.foldlM (fun k d ↦ (hexDigit? d).map (16 * k + ·)) 0
  if digits.length < n ∨ ¬ code.isValidChar then none else some (Char.ofNat code, c.drop n)

def escape? : Char → Option Char
  | '0' => some '\x00'
  | 'a' => some '\x07'
  | 'b' => some '\x08'
  | 't' => some '\t'
  | '\t' => some '\t'
  | 'n' => some '\n'
  | 'v' => some '\x0b'
  | 'f' => some '\x0c'
  | 'r' => some '\r'
  | 'e' => some '\x1b'
  | ' ' => some ' '
  | '"' => some '"'
  | '/' => some '/'
  | '\\' => some '\\'
  | 'N' => some '\u0085'
  | '_' => some '\u00a0'
  | 'L' => some '\u2028'
  | 'P' => some '\u2029'
  | _ => none

def readEscape? (c : Cursor) : Option (Char × Cursor) :=
  match c.rest with
  | 'x' :: _ => readCode? 2 (c.drop 1)
  | 'u' :: _ => readCode? 4 (c.drop 1)
  | 'U' :: _ => readCode? 8 (c.drop 1)
  | x :: _ => (escape? x).map (·, c.drop 1)
  | [] => none

/-- The characters of a scalar in double quotes, after the opening quote.  Of a break after a
backslash nothing stays, and the breaks after it stay all.  Each step takes at least one character,
so fuel above the length of the text is enough. -/
def readDouble : Nat → Cursor → Option (List Char × Cursor)
  | 0, _ => none
  | fuel + 1, c =>
    if c.isAtMarker then none
    else match c.rest with
      | [] => none
      | '"' :: _ => some ([], c.drop 1)
      | '\\' :: s =>
        if s.head?.any isBreak then do
          let (gap, c) ← (c.drop 1).next.takeGap 0
          let (cs, rest) ← readDouble fuel c
          return (gap.breaks ++ cs, rest)
        else do
          let (x, c) ← readEscape? (c.drop 1)
          let (cs, rest) ← readDouble fuel c
          return (x :: cs, rest)
      | x :: _ =>
        if isGap x || isBreak x then do
          let (gap, c) ← c.takeGap 0
          let (cs, rest) ← readDouble fuel c
          return (gap.fold ++ cs, rest)
        else do
          let (cs, rest) ← readDouble fuel (c.drop 1)
          return (x :: cs, rest)

/-- The characters of a scalar in single quotes, after the opening quote.  Each step takes at least
one character, so fuel above the length of the text is enough. -/
def readSingle : Nat → Cursor → Option (List Char × Cursor)
  | 0, _ => none
  | fuel + 1, c =>
    if c.isAtMarker then none
    else match c.rest with
      | [] => none
      | '\'' :: '\'' :: _ => do
        let (cs, rest) ← readSingle fuel (c.drop 2)
        return ('\'' :: cs, rest)
      | '\'' :: _ => some ([], c.drop 1)
      | x :: _ =>
        if isGap x || isBreak x then do
          let (gap, c) ← c.takeGap 0
          let (cs, rest) ← readSingle fuel c
          return (gap.fold ++ cs, rest)
        else do
          let (cs, rest) ← readSingle fuel (c.drop 1)
          return (x :: cs, rest)

/-! ## Scalars without quotes -/

/-- Whether a scalar without quotes begins here, given that no other token does. -/
def startsPlain (flow : Bool) : List Char → Bool
  | [] => false
  | x :: s =>
    if x == '-' then !(s.head?.any isGap)
    else if x == '?' || x == ':' then !flow && !atGap s
    else !(isGap x || isBreak x || isFlowMark x || "#&*!|>'\"%@\u0060".toList.contains x)

/-- The piece of a scalar without quotes up to the next gap.  It ends before a colon with a gap
after it, and in a flow collection before a mark; there, a colon before a mark is an error. -/
def takePiece? (flow : Bool) : List Char → Option (List Char)
  | [] => some []
  | x :: s =>
    if isGap x || isBreak x then some []
    else if x == ':' && flow && s.head?.any (fun y ↦ isFlowMark y || y == '?') then none
    else if x == ':' && atGap s then some []
    else if flow && isFlowMark x then some []
    else (takePiece? flow s).map (x :: ·)

/-- The characters of a scalar without quotes after the gap `gap`, whether a line was broken after
the last of them, and the place of the token after it.  In a block its lines have at least `least`
columns.  Each step takes at least one character, so fuel above the length of the text is enough. -/
def readPlain (flow : Bool) (least : Nat) : Nat → Gap → Cursor → Option (List Char × Bool × Cursor)
  | 0, _, _ => none
  | fuel + 1, gap, c =>
    if c.isAtMarker || c.rest.head? = some '#' then some ([], gap.isBroken, c)
    else do
      let piece ← takePiece? flow c.rest
      if piece.isEmpty then some ([], gap.isBroken, c)
      else do
        let (next, c) ← (c.drop piece.length).takeGap least
        if !flow && c.column < least then some (gap.fold ++ piece, next.isBroken, c)
        else do
          let (cs, broken, c) ← readPlain flow least fuel next c
          return (gap.fold ++ piece ++ cs, broken, c)

end OracleMarkets.Yaml
