namespace PipelinedProcessor.Text

-- Columns line up on the right for numbers and on the left for names; a text that is too long is
-- never cut.
def padLeft (width : Nat) (text : String) : String :=
  "".pushn ' ' (width - text.length) ++ text

def padRight (width : Nat) (text : String) : String :=
  text.pushn ' ' (width - text.length)

-- Upper-case hexadecimal digits, filled up with zeros to `width` of them.
def hex (width n : Nat) : String :=
  let digits := (Nat.toDigits 16 n).map Char.toUpper
  "".pushn '0' (width - digits.length) ++ String.ofList digits

def twoDigits (n : Nat) : String :=
  if n < 10 then "0" ++ n.repr else n.repr

-- Letters outside of ASCII have one case here, their own.
def upper (text : String) : String :=
  String.ofList (text.toList.map Char.toUpper)

end PipelinedProcessor.Text
