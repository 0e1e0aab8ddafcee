import StepLisp.Datum
import StepLisp.Decimal.Numeral
import StepLisp.Fault

namespace StepLisp

structure Defect where
  cause : Unreadable
  complete : List Datum

namespace Reader

-- A list element, a dotted tail and a marked datum are each one level deeper.
def maxDepth : Nat := 1000

def isBlank (c : Char) : Bool :=
  c = ' ' || c = '\t' || c = '\n' || c = '\x0c' || c = '\r'

def isDelimiter (c : Char) : Bool :=
  isBlank c || c = '(' || c = ')' || c = '\'' || c = '\x60' || c = ',' || c = '"' || c = ';'

mutual

def skipBlank : List Char → List Char
  | [] => []
  | c :: cs => if isBlank c then skipBlank cs else if c = ';' then skipComment cs else c :: cs

def skipComment : List Char → List Char
  | [] => []
  | c :: cs => if c = '\n' then skipBlank cs else skipComment cs

end

-- What a dot has to be followed by to announce the tail of a list.
def endsDot : List Char → Bool
  | [] => true
  | c :: _ => isBlank c || c = ')'

def escaped : Char → Char
  | 'n' => '\n'
  | 't' => '\t'
  | 'r' => '\r'
  | c => c

def literal (seen : List Char) : List Char → Except Unreadable (String × List Char)
  | [] => .error .unterminatedString
  | '"' :: cs => .ok (String.ofList seen.reverse, cs)
  | '\\' :: [] => .error .unterminatedEscape
  | '\\' :: c :: cs => literal (escaped c :: seen) cs
  | c :: cs => literal (c :: seen) cs

-- Whether a word is tried as a double.
def isNumberLike (word : List Char) : Bool :=
  word.any Numeral.isDigit && word.all fun c => !c.isAlpha || c = 'e' || c = 'E'

def ofWord (word : List Char) : Datum :=
  if word = ['#', 't'] then .truth
  else
    match Numeral.int64? word with
    | some n => .int n
    | none =>
      match if isNumberLike word then Numeral.float? word else none with
      | some x => .float x
      | none => .symbol (String.ofList word)

abbrev Outcome := Except Defect (Datum × List Char)

def fail (cause : Unreadable) : Outcome :=
  .error ⟨cause, []⟩

def failAfter (complete : List Datum) (cause : Unreadable) : Outcome :=
  .error ⟨cause, complete⟩

-- Adds data that were complete before the ones a defect reports.
def Outcome.after (seen : List Datum) : Outcome → Outcome
  | .ok r => .ok r
  | .error ⟨cause, complete⟩ => .error ⟨cause, seen.reverse ++ complete⟩

-- The elements of a list behind its opening parenthesis, given how a single datum is read. The
-- elements met so far come in reverse.
def elements (datum : List Char → Outcome) : Nat → List Datum → List Char → Outcome
  | 0, seen, _ => failAfter seen.reverse .unterminatedList
  | fuel + 1, seen, cs =>
    match skipBlank cs with
    | [] => failAfter seen.reverse .unterminatedList
    | ')' :: cs => .ok (.list seen.reverse .nil, cs)
    | c :: cs =>
      if c = '.' && endsDot cs then
        if seen.isEmpty then fail .leadingDot
        else
          match datum cs with
          | .error defect => Outcome.after seen (.error defect)
          | .ok (tail, cs) =>
            match skipBlank cs with
            | ')' :: cs => .ok (.list seen.reverse tail, cs)
            | _ => failAfter (seen.reverse ++ [tail]) .afterTail
      else
        match datum (c :: cs) with
        | .error defect => Outcome.after seen (.error defect)
        | .ok (d, cs) => elements datum fuel (d :: seen) cs

-- A datum with a mark in front of it.
def marked (name : String) : Outcome → Outcome
  | .ok (d, cs) => .ok (.tagged name d, cs)
  | .error defect => .error defect

def datum : Nat → List Char → Outcome
  | levels, cs =>
    match skipBlank cs with
    | [] => fail .unexpectedEnd
    | c :: cs =>
      match levels with
      | 0 => fail .tooDeep
      | levels + 1 =>
        match c, cs with
        | '(', cs => elements (datum levels) (cs.length + 1) [] cs
        | ')', _ => fail .unexpectedClose
        | '\'', cs => marked "quote" (datum levels cs)
        | '\x60', cs => marked "quasiquote" (datum levels cs)
        | ',', '@' :: cs => marked "unquote-splicing" (datum levels cs)
        | ',', cs => marked "unquote" (datum levels cs)
        | '"', cs =>
          match literal [] cs with
          | .ok (text, cs) => .ok (.string text, cs)
          | .error cause => fail cause
        | c, cs =>
          let (word, rest) := (c :: cs).span (!isDelimiter ·)
          .ok (ofWord word, rest)

def next (cs : List Char) : Except Defect (Option (Datum × List Char)) :=
  if (skipBlank cs).isEmpty then .ok none
  else
    match datum maxDepth cs with
    | .ok r => .ok (some r)
    | .error defect => .error defect

def byteLength (cs : List Char) : Nat :=
  cs.foldl (fun n c => n + c.utf8Size) 0

def dropBytes : Nat → List Char → Option (List Char)
  | 0, cs => some cs
  | _ + 1, [] => none
  | n + 1, c :: cs => if c.utf8Size ≤ n + 1 then dropBytes (n + 1 - c.utf8Size) cs else none

def nextAt (text : List Char) (pos : Nat) : Except Defect (Option (Datum × Nat)) :=
  match dropBytes pos text with
  | none => .error ⟨.positionOutOfRange, []⟩
  | some rest =>
    match next rest with
    | .ok none => .ok none
    | .ok (some (d, behind)) => .ok (some (d, pos + (byteLength rest - byteLength behind)))
    | .error defect => .error defect

structure Contents (α : Type) where
  data : List α
  defect : Option Defect

def allFrom : Nat → List Datum → List Char → Contents Datum
  | 0, seen, _ => ⟨seen.reverse, none⟩
  | fuel + 1, seen, cs =>
    match next cs with
    | .ok none => ⟨seen.reverse, none⟩
    | .ok (some (d, rest)) => allFrom fuel (d :: seen) rest
    | .error defect => ⟨seen.reverse, some defect⟩

-- Reads a whole text in one pass. Every datum takes at least one character.
def all (text : List Char) : Contents Datum :=
  allFrom (text.length + 1) [] text

def walkFrom (text : List Char) : Nat → List (Datum × Nat) → Nat → Contents (Datum × Nat)
  | 0, seen, _ => ⟨seen.reverse, none⟩
  | fuel + 1, seen, pos =>
    match nextAt text pos with
    | .ok none => ⟨seen.reverse, none⟩
    | .ok (some (d, pos)) => walkFrom text fuel ((d, pos) :: seen) pos
    | .error defect => ⟨seen.reverse, some defect⟩

def walk (text : List Char) : Contents (Datum × Nat) :=
  walkFrom text (text.length + 1) [] 0

end Reader
end StepLisp
