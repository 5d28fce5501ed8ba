import SemanticCheck.Toml.Text
import SemanticCheck.Toml.Value

/-!
# Numbers and dates of TOML

An underscore stands only between two digits. Integers fit in 64 bits with a sign, and a number too
large for a double is refused; dates and times are those of the calendar.
-/

namespace SemanticCheck.TomlText

/-! ## Digits -/

/-- Digits with single underscores between them, the underscores left out. -/
def digitRun (isDigit : Char → Bool) : Reader (List Char)
  | [] => none
  | c :: rest =>
    if !isDigit c then none
    else if rest.head?.any isDigit then push c (digitRun isDigit rest)
    else
      match rest with
      | '_' :: more => push c (digitRun isDigit more)
      | _ => some ([c], rest)

/-- A number after its sign, with no needless zero in front. -/
def decimalDigits : Reader (List Char)
  | '0' :: rest => some (['0'], rest)
  | cs => digitRun Char.isDigit cs

def signed : List Char → Bool × List Char
  | '-' :: rest => (true, rest)
  | '+' :: rest => (false, rest)
  | cs => (false, cs)

def valueOf (base : Nat) (digits : List Char) : Nat :=
  digits.foldl (fun n c => base * n + (hexDigit? c).getD 0) 0

/-! ## Integers -/

/-- Whether a number fits in 64 bits with a sign. -/
def inRange (n : Int) : Bool := -9223372036854775808 ≤ n && n ≤ 9223372036854775807

def based (base : Nat) (isDigit : Char → Bool) (cs : List Char) : Option (Toml × List Char) := do
  let (digits, rest) ← digitRun isDigit cs
  let n : Int := valueOf base digits
  if inRange n then some (.integer n, rest) else none

def integer : Reader Toml
  | '0' :: 'x' :: rest => based 16 (fun c => (hexDigit? c).isSome) rest
  | '0' :: 'o' :: rest => based 8 (fun c => '0' ≤ c && c ≤ '7') rest
  | '0' :: 'b' :: rest => based 2 (fun c => c == '0' || c == '1') rest
  | cs => do
    let (negative, cs) := signed cs
    let (digits, rest) ← decimalDigits cs
    let n : Int := valueOf 10 digits
    let n := if negative then -n else n
    if inRange n then some (.integer n, rest) else none

/-! ## Floats -/

/-- From here on a number is nearer to what follows the largest double than to that double. -/
def doubleBound : Nat := Nat.pow 2 1024 - Nat.pow 2 970

/-- Whether `m * 10 ^ e` is too large for a double. -/
def overflows (m : Nat) (e : Int) : Bool :=
  let size : Int := (toString m).length + e
  if m = 0 || size < 309 then false
  else if 309 < size then true
  else if 0 ≤ e then doubleBound ≤ m * Nat.pow 10 e.toNat
  else doubleBound * Nat.pow 10 (-e).toNat ≤ m

def fraction? : List Char → Option (List Char × List Char)
  | '.' :: rest => digitRun Char.isDigit rest
  | _ => none

def exponent? : List Char → Option (Int × List Char)
  | c :: rest =>
    if c == 'e' || c == 'E' then
      let (negative, cs) := signed rest
      (digitRun Char.isDigit cs).map fun (digits, rest) =>
        let n : Int := valueOf 10 digits
        (if negative then -n else n, rest)
    else none
  | [] => none

def finite (negative : Bool) (whole fraction : List Char) (exponent : Int) (rest : List Char) :
    Option (Toml × List Char) :=
  if !negative && overflows (valueOf 10 (whole ++ fraction)) (exponent - fraction.length) then none
  else some (.float, rest)

def special : Reader Toml
  | 'i' :: 'n' :: 'f' :: rest => some (.float, rest)
  | 'n' :: 'a' :: 'n' :: rest => some (.float, rest)
  | _ => none

/-- A number with a fraction, an exponent or both; or one of the named ones. -/
def float : Reader Toml := fun cs =>
  let (negative, unsigned) := signed cs
  match decimalDigits unsigned with
  | none => special unsigned
  | some (whole, rest) =>
    match exponent? rest with
    | some (e, rest) => finite negative whole [] e rest
    | none => do
      let (fraction, rest) ← fraction? rest
      match exponent? rest with
      | some (e, rest) => finite negative whole fraction e rest
      | none => finite negative whole fraction 0 rest

/-! ## Dates and times -/

/-- The number that a fixed count of digits spells, with the digits. -/
def fixedDigits (count : Nat) (cs : List Char) : Option (Nat × List Char) :=
  let digits := cs.take count
  if digits.length == count && digits.all Char.isDigit then some (valueOf 10 digits, cs.drop count)
  else none

def expect (c : Char) : List Char → Option (List Char)
  | d :: rest => if c == d then some rest else none
  | [] => none

def padded (width n : Nat) : String :=
  let digits := toString n
  String.ofList (List.replicate (width - digits.length) '0') ++ digits

def isLeapYear (year : Nat) : Bool := year % 4 == 0 && (year % 100 != 0 || year % 400 == 0)

def daysIn (year month : Nat) : Nat :=
  if month = 2 then (if isLeapYear year then 29 else 28)
  else if month = 4 || month = 6 || month = 9 || month = 11 then 30
  else 31

def calendarDate : Reader String := fun cs => do
  let (year, cs) ← fixedDigits 4 cs
  let cs ← expect '-' cs
  let (month, cs) ← fixedDigits 2 cs
  let cs ← expect '-' cs
  let (day, rest) ← fixedDigits 2 cs
  if 1 ≤ month && month ≤ 12 && 1 ≤ day && day ≤ daysIn year month then
    some (padded 4 year ++ "-" ++ padded 2 month ++ "-" ++ padded 2 day, rest)
  else none

/-- A fraction of a second is kept to nine digits, without zeros at its end. -/
def fractionText (digits : List Char) : String :=
  match ((digits.take 9).reverse.dropWhile (· == '0')).reverse with
  | [] => ""
  | kept => String.ofList ('.' :: kept)

def clockTime : Reader String := fun cs => do
  let (hour, cs) ← fixedDigits 2 cs
  let cs ← expect ':' cs
  let (minute, cs) ← fixedDigits 2 cs
  let cs ← expect ':' cs
  let (second, rest) ← fixedDigits 2 cs
  if 23 < hour || 59 < minute || 60 < second then none
  else
    let text := padded 2 hour ++ ":" ++ padded 2 minute ++ ":" ++ padded 2 second
    match rest with
    | '.' :: more =>
      match more.span Char.isDigit with
      | ([], _) => some (text, rest)
      | (digits, after) => some (text ++ fractionText digits, after)
    | _ => some (text, rest)

def zone : Reader String
  | 'Z' :: rest => some ("Z", rest)
  | 'z' :: rest => some ("Z", rest)
  | c :: cs => do
    if c != '+' && c != '-' then none
    else
      let (hour, cs) ← fixedDigits 2 cs
      let cs ← expect ':' cs
      let (minute, rest) ← fixedDigits 2 cs
      if 23 < hour || 59 < minute then none
      else
        let sign := if c == '-' && hour + minute != 0 then "-" else "+"
        some (sign ++ padded 2 hour ++ ":" ++ padded 2 minute, rest)
  | [] => none

/-- The time of day that may follow a date. -/
def timeAfter (day : String) (cs : List Char) : Option (Toml × List Char) :=
  match cs with
  | c :: more =>
    if c == 'T' || c == 't' || c == ' ' then
      match clockTime more with
      | some (time, rest) =>
        match zone rest with
        | some (offset, rest) => some (.date (day ++ "T" ++ time ++ offset), rest)
        | none => some (.date (day ++ "T" ++ time), rest)
      | none => some (.date day, cs)
    else some (.date day, cs)
  | [] => some (.date day, [])

/-- A date, a time of day, or both. -/
def dateTime : Reader Toml := fun cs =>
  match calendarDate cs with
  | some (day, rest) => timeAfter day rest
  | none => (clockTime cs).map fun (time, rest) => (.date time, rest)

def number : Reader Toml := fun cs => (dateTime cs).or ((float cs).or (integer cs))

end SemanticCheck.TomlText
