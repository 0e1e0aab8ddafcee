import Std.Data.ExtTreeSet
import StepLisp.Builtin
import StepLisp.Decimal.Shortest
import StepLisp.Image

namespace StepLisp

-- Whether a text is to be read back, or is for people, with strings shown as they are.
inductive Style
  | written
  | displayed

namespace Style

def floatText (x : Float) : String :=
  match Binary64.ofFloat x with
  | .nan => "nan"
  | .infinite negative => if negative then "-inf" else "inf"
  | d =>
    let text := d.toText
    if text.toList.contains '.' then text else text ++ ".0"

def escape : Char → List Char
  | '"' => ['\\', '"']
  | '\\' => ['\\', '\\']
  | '\n' => ['\\', 'n']
  | '\t' => ['\\', 't']
  | '\r' => ['\\', 'r']
  | c => [c]

def quoted (text : String) : String :=
  String.ofList ('"' :: text.toList.flatMap escape ++ ['"'])

def string : Style → String → String
  | written => quoted
  | displayed => id

end Style

namespace Image

def maxPrintDepth : Nat := 1000

-- The pairs on the way from the root to where the printer is.
abbrev Path := Std.ExtTreeSet Nat

-- The way and the text so far. A pair is entered before its parts are printed, and left after.
structure Page where
  path : Path
  out : String

namespace Page

def put (page : Page) (text : String) : Page :=
  { page with out := page.out ++ text }

def enter (page : Page) (id : PairId) : Page :=
  { page with path := page.path.insert id.index }

def leave (page : Page) (id : PairId) : Page :=
  { page with path := page.path.erase id.index }

end Page

def atomText (image : Image) (style : Style) : Value → String
  | .nil => "()"
  | .truth => "#t"
  | .int n => toString n.toInt
  | .float x => Style.floatText x
  | .string id =>
    match image.store.string id with
    | .ok text => style.string text
    | .error _ => "<dangling string>"
  | .symbol x => image.symbols.name x
  | .builtin id =>
    match Builtin.ofId? id with
    | some b => s!"<primitive {b.name}>"
    | none => "<primitive>"
  | .closure id =>
    match image.store.closure id with
    | .ok c => if c.special then "<special>" else "<lambda>"
    | .error _ => "<lambda>"
  | .continuation _ => "<continuation>"
  | .foreign id =>
    match image.store.foreign id with
    | .ok (.instant _) => "<opaque instant>"
    | .error _ => "<opaque>"
  | .pair _ => ""

def quotation? (image : Image) (id : PairId) : Option Value :=
  match image.store.car id, image.store.cdr id with
  | .symbol x, .pair rest =>
    if x = .quote && (image.store.cdr rest).isNil then some (image.store.car rest) else none
  | _, _ => none

-- Appends the elements of a list, given how a single value is appended, and closes the list. The
-- pairs of the list that have been entered come last first.
def printList (image : Image) (print : Page → Value → Page) :
    Nat → List PairId → Page → Value → Page
  | _, entered, page, .nil => entered.foldl Page.leave (page.put ")")
  | 0, entered, page, .pair _ =>
    entered.foldl Page.leave ((page.put " ...").put ")")
  | fuel + 1, entered, page, .pair id =>
    if page.path.contains id.index then
      entered.foldl Page.leave ((page.put " ...").put ")")
    else
      let page := if entered.isEmpty then page else page.put " "
      let page := print (page.enter id) (image.store.car id)
      printList image print fuel (id :: entered) page (image.store.cdr id)
  | _, entered, page, atom =>
    entered.foldl Page.leave ((print (page.put " . ") atom).put ")")

-- Appends a value that lies at most so many levels above the deepest that is shown.
def printOn (image : Image) (style : Style) : Nat → Page → Value → Page
  | 0, page, _ => page.put "..."
  | levels + 1, page, .pair id =>
    if page.path.contains id.index then page.put "..."
    else
      match image.quotation? id with
      | some v => (printOn image style levels ((page.enter id).put "'") v).leave id
      | none =>
        image.printList (printOn image style levels) (image.store.totalCells + 1) []
          (page.put "(") (.pair id)
  | _ + 1, page, atom => page.put (image.atomText style atom)

def print (image : Image) (style : Style) (v : Value) : String :=
  (image.printOn style (maxPrintDepth + 1) ⟨∅, ""⟩ v).out

def write (image : Image) (v : Value) : String :=
  image.print .written v

def display (image : Image) (v : Value) : String :=
  image.print .displayed v

end Image
end StepLisp
