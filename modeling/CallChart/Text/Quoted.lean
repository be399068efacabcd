import CallChart.Text.Hidden

/-! Text in double quotes, with everything escaped that would not show. -/
namespace CallChart.Text

def hexDigits (n : Nat) : List Char := Nat.toDigits 16 n

def escape (c : Char) : List Char :=
  match c with
  | '"' => ['\\', '"']
  | '\\' => ['\\', '\\']
  | '\t' => ['\\', 't']
  | '\r' => ['\\', 'r']
  | '\n' => ['\\', 'n']
  | '\x00' => ['\\', '0']
  | c => if isHidden c then "\\u\x7b".toList ++ hexDigits c.toNat ++ ['}'] else [c]

def quoted (text : String) : String :=
  String.ofList ('"' :: text.toList.flatMap escape ++ ['"'])

/-- `n` in hexadecimal, filled up with zeros to `width` digits. -/
def hex (width n : Nat) : String :=
  let digits := hexDigits n
  String.ofList (List.replicate (width - digits.length) '0' ++ digits)

end CallChart.Text
