namespace StepLisp

structure Output where
  text : String := ""
  room : Option Nat := none

namespace Output

-- The part of a text that fits into the given number of bytes.
def fitting : Nat → List Char → List Char
  | _, [] => []
  | room, c :: cs =>
    if c.utf8Size ≤ room then c :: fitting (room - c.utf8Size) cs
    else if 0 < room then [Char.ofNat 0xfffd]
    else []

def write (o : Output) (text : String) : Bool × Output :=
  match o.room with
  | none => (true, { o with text := o.text ++ text })
  | some room =>
    if text.utf8ByteSize ≤ room then
      (true, { text := o.text ++ text, room := some (room - text.utf8ByteSize) })
    else
      (false, { text := o.text ++ String.ofList (fitting room text.toList), room := some 0 })

def take (o : Output) : String × Output :=
  (o.text, { o with text := "" })

end Output
end StepLisp
