import Conductor.Datum

/-!
# Message templates

A template is a text with places for arguments. A place is a percent sign followed by an optional
key, flags, a width and a precision, and a letter that says how the argument is shown: `s` and `r`
as text, `d` as an integer, `x` and `o` in other bases, `f`, `e` and `g` as a floating-point number,
`c` as a character. Two percent signs in a row stand for one.

Arguments are taken in a row, or by key from a dictionary. It is a failure if they do not fit the
places, or if some of several are left over.
-/

namespace Conductor

namespace Template

/-- What fills the places of a template. -/
inductive Arguments where
  /-- Arguments that are taken one after another. -/
  | row (ds : List Datum)
  /-- A single argument, which may be a dictionary of arguments. -/
  | single (d : Datum)

/-- A place for an argument. -/
structure Place where
  left : Bool
  sign : Bool
  blank : Bool
  alternate : Bool
  zeros : Bool
  width : Nat
  precision : Option Nat

/-- A place without flags. -/
def Place.plain : Place := ⟨false, false, false, false, false, 0, none⟩

/-- Where filling a template stands: the arguments that are left, and the dictionary of
arguments. -/
structure Supply where
  row : List Datum
  named : Option Datum

/-- A fault in a template or its arguments. -/
def fault {α : Type} (kind : FailureKind) (text : String) : Except Cause α :=
  .error (.raised kind text)

/-! ## Showing arguments -/

/-- Fills a text up to a width. -/
def pad (p : Place) (lead body : List Char) : List Char :=
  let missing := p.width - (lead.length + body.length)
  if p.left then lead ++ body ++ List.replicate missing ' '
  else if p.zeros then lead ++ List.replicate missing '0' ++ body
  else List.replicate missing ' ' ++ lead ++ body

/-- A text at a place. -/
def showText (p : Place) (t : String) : List Char :=
  let cs := t.toList
  pad { p with zeros := false } [] (match p.precision with | some n => cs.take n | none => cs)

/-- The sign in front of a number. -/
def signOf (p : Place) (negative : Bool) : List Char :=
  if negative then ['-'] else if p.sign then ['+'] else if p.blank then [' '] else []

/-- An integer at a place, in some base. -/
def showInteger (p : Place) (base : Nat) (mark : List Char) (upper : Bool) (i : Int) :
    List Char :=
  let ds := Nat.toDigits base i.natAbs
  let ds := if upper then ds.map Char.toUpper else ds
  let ds := List.replicate (p.precision.getD 0 - ds.length) '0' ++ ds
  pad p (signOf p (decide (i < 0)) ++ (if p.alternate then mark else [])) ds

/-- The digits of a number with a point in them, even if no digit follows it. -/
def pointed (cs : List Char) : List Char :=
  if cs.contains '.' then cs
  else
    let (whole, rest) := cs.span Char.isDigit
    whole ++ '.' :: rest

/-- The digits of a finite number that is not negative, given in units. -/
def finiteDigits (p : Place) (letter : Char) (units : Nat) : List Char :=
  let places := p.precision.getD 6
  let cs := match letter.toLower with
    | 'f' =>
      Binary64.placed (Binary64.roundHalfEven (units * Nat.pow 10 places) Binary64.unitsOfOne) places
    | 'e' => Binary64.scientific places units
    | _ => Binary64.general places p.alternate units
  if p.alternate then pointed cs else cs

/-- A floating-point number at a place. -/
def showFloat (p : Place) (letter : Char) (x : Binary64) : List Char :=
  let body : List Char :=
    match x with
    | .nan => "nan".toList
    | .infinite _ => "inf".toList
    | .finite _ k => finiteDigits p letter (Binary64.units k)
  let body := if letter.isUpper then body.map Char.toUpper else body
  pad p (signOf p x.isNegative) body

/-- The integer that an argument stands for at a place for integers. -/
def integerOf (letter : Char) : Datum → Except Cause Int
  | .int i => .ok i
  | .bool b => .ok (if b then 1 else 0)
  | .float x =>
    if letter == 'x' || letter == 'X' || letter == 'o' then
      fault .badType s!"%{letter} format: an integer is required, not float"
    else match x with
      | .nan => fault .badValue "cannot convert float NaN to integer"
      | .infinite _ => fault .overflow "cannot convert float infinity to integer"
      | .finite _ _ => .ok x.truncate
  | d =>
    let kind := d.kindName
    let wanted :=
      if letter == 'x' || letter == 'X' || letter == 'o' then "an integer" else "a real number"
    fault .badType s!"%{letter} format: {wanted} is required, not {kind}"

/-- The floating-point number that an argument stands for. -/
def floatOf : Datum → Except Cause Binary64
  | .float x => .ok x
  | .bool b => .ok (if b then Binary64.one else Binary64.zero)
  | .int i =>
    match Binary64.ofInt? i with
    | some x => .ok x
    | none => .error .integerTooLarge
  | d =>
    let kind := d.kindName
    fault .badType s!"must be real number, not {kind}"

/-- The character that an argument stands for. -/
def characterOf : Datum → Except Cause String
  | .text t =>
    if t.length = 1 then .ok t else fault .badType "%c requires int or char"
  | .int i =>
    if 0 ≤ i ∧ i < 0x110000 then .ok (String.singleton (Char.ofNat i.toNat))
    else fault .overflow "%c arg not in range(0x110000)"
  | .bool b => .ok (String.singleton (Char.ofNat (if b then 1 else 0)))
  | _ => fault .badType "%c requires int or char"

/-- An argument at a place. -/
def show? (p : Place) (letter : Char) (d : Datum) : Option (Except Cause (List Char)) :=
  match letter with
  | 's' => some (.ok (showText p d.toText))
  | 'r' => some (.ok (showText p d.repr))
  | 'a' => some (.ok (showText p (Text.narrowed d.repr)))
  | 'd' | 'i' | 'u' =>
    some ((integerOf letter d).map (showInteger { p with alternate := false } 10 [] false))
  | 'x' => some ((integerOf letter d).map (showInteger p 16 ['0', 'x'] false))
  | 'X' => some ((integerOf letter d).map (showInteger p 16 ['0', 'X'] true))
  | 'o' => some ((integerOf letter d).map (showInteger p 8 ['0', 'o'] false))
  | 'f' | 'F' | 'e' | 'E' | 'g' | 'G' => some ((floatOf d).map (showFloat p letter))
  | 'c' => some ((characterOf d).map (showText { p with precision := none }))
  | _ => none

/-! ## Reading places -/

/-- Takes the next argument. -/
def take (s : Supply) : Except Cause (Datum × Supply) :=
  match s.row with
  | d :: ds => .ok (d, { s with row := ds })
  | [] => fault .badType "not enough arguments for format string"

/-- Reads a key up to the bracket that closes it; brackets inside it come in pairs. -/
def takeKey? : Nat → List Char → Option (List Char × List Char)
  | _, [] => none
  | depth, c :: cs =>
    if c == ')' then
      match depth with
      | 0 => some ([], cs)
      | depth + 1 => (takeKey? depth cs).map fun (k, r) => (c :: k, r)
    else (takeKey? (if c == '(' then depth + 1 else depth) cs).map fun (k, r) => (c :: k, r)

/-- Looks up a key among named arguments. -/
def named (s : Supply) (key : String) : Except Cause Datum :=
  match s.named with
  | some (.dict es) =>
    match es.lookup key with
    | some d => .ok d
    | none => .error (.raised .missingKey key)
  | _ => .error .textIndex

/-- Reads an optional key; the argument under it becomes the next one. -/
def readKey (s : Supply) : List Char → Except Cause (Supply × List Char)
  | '(' :: cs =>
    if s.named.isNone then fault .badType "format requires a mapping"
    else match takeKey? 0 cs with
      | none => fault .badValue "incomplete format key"
      | some (key, rest) => do
        let d ← named s (String.ofList key)
        .ok ({ s with row := [d] }, rest)
  | cs => .ok (s, cs)

/-- Reads flags. -/
def readFlags (p : Place) : List Char → Place × List Char
  | '-' :: cs => readFlags { p with left := true } cs
  | '+' :: cs => readFlags { p with sign := true } cs
  | ' ' :: cs => readFlags { p with blank := true } cs
  | '#' :: cs => readFlags { p with alternate := true } cs
  | '0' :: cs => readFlags { p with zeros := true } cs
  | cs => (p, cs)

/-- The value of a row of digits. -/
def digitsValue (ds : List Char) : Nat :=
  ds.foldl (fun n c => 10 * n + (c.toNat - '0'.toNat)) 0

/-- What a number in a place is for, and with it how large it may be. -/
inductive Measure where
  | width
  | precision
  deriving DecidableEq, Repr

/-- The name of a measure. -/
def Measure.name : Measure → String
  | .width => "width"
  | .precision => "precision"

/-- The bits of a machine word that holds a measure. -/
def Measure.bits : Measure → Nat
  | .width => 64
  | .precision => 32

/-- Whether an integer fits into a signed word. -/
def fits (bits : Nat) (i : Int) : Bool :=
  -Int.pow 2 (bits - 1) ≤ i && i < Int.pow 2 (bits - 1)

/-- Reads a number, which may be given as an argument. -/
def readCount (m : Measure) (s : Supply) : List Char → Except Cause (Int × Supply × List Char)
  | '*' :: cs => do
    let (d, s) ← take s
    match d.int? with
    | some i =>
      if fits m.bits i then .ok (i, s, cs)
      else .error (.exceedsWord (m == .width))
    | none => fault .badType "* wants int"
  | cs =>
    let (ds, rest) := cs.span Char.isDigit
    let n := digitsValue ds
    if fits m.bits n then .ok (n, s, rest)
    else fault .badValue (m.name ++ " too big")

/-- Reads a width. A negative one, which only an argument can give, aligns to the left. -/
def readWidth (p : Place) (s : Supply) (cs : List Char) :
    Except Cause (Place × Supply × List Char) := do
  let (n, s, cs) ← readCount .width s cs
  .ok ({ p with width := n.natAbs, left := p.left || decide (n < 0) }, s, cs)

/-- Reads a precision, if there is one. -/
def readPrecision (p : Place) (s : Supply) :
    List Char → Except Cause (Place × Supply × List Char)
  | '.' :: cs => do
    let (n, s, cs) ← readCount .precision s cs
    .ok ({ p with precision := some n.toNat }, s, cs)
  | cs => .ok (p, s, cs)

/-- Skips letters for a size, which carry no meaning. -/
def skipSize : List Char → List Char
  | c :: cs => if c == 'h' || c == 'l' || c == 'L' then cs else c :: cs
  | [] => []

/-- Fills one place, given what stands behind its percent sign. -/
def fillPlace (length : Nat) (s : Supply) (cs : List Char) :
    Except Cause (List Char × Supply × List Char) := do
  if let '%' :: rest := cs then
    return (['%'], s, rest)
  let (s, cs) ← readKey s cs
  let (p, cs) := readFlags .plain cs
  let (p, s, cs) ← readWidth p s cs
  let (p, s, cs) ← readPrecision p s cs
  match skipSize cs with
  | [] => fault .badValue "incomplete format"
  | letter :: rest =>
    let (d, s) ← take s
    match show? p letter d with
    | some shown => .ok (← shown, s, rest)
    | none =>
      let shown := if 31 ≤ letter.toNat ∧ letter.toNat < 127 then letter else '?'
      let code := String.ofList (Text.hex 1 letter.toNat)
      let index := length - (rest.length + 1)
      fault .badValue s!"unsupported format character '{shown}' (0x{code}) at index {index}"

/-- Fills the places of a template; the fuel bounds its length. -/
def fillFrom (length : Nat) : Nat → Supply → List Char → Except Cause (List Char × Supply)
  | 0, s, _ => .ok ([], s)
  | _, s, [] => .ok ([], s)
  | fuel + 1, s, c :: cs => do
    if c == '%' then
      let (shown, s, rest) ← fillPlace length s cs
      let (more, s) ← fillFrom length fuel s rest
      .ok (shown ++ more, s)
    else
      let (more, s) ← fillFrom length fuel s cs
      .ok (c :: more, s)

/-- The arguments at hand in the beginning. -/
def Arguments.supply : Arguments → Supply
  | .row ds => ⟨ds, none⟩
  | .single (.dict es) => ⟨[.dict es], some (.dict es)⟩
  | .single (.list xs) => ⟨[.list xs], some (.list xs)⟩
  | .single d => ⟨[d], none⟩

/-- Fills a template with arguments. -/
def fill (template : String) (args : Arguments) : Except Cause String := do
  let cs := template.toList
  let (out, s) ← fillFrom cs.length (cs.length + 1) args.supply cs
  if s.named.isNone && !s.row.isEmpty then
    fault .badType "not all arguments converted during string formatting"
  else .ok (String.ofList out)

end Template

end Conductor
