import JitGemm.Text.Escaped

/-!
# Quoted text

A character between single quotes or a text between double quotes. The other kind of quote stands as
it is; characters that cannot be shown are written as hexadecimal code points in braces.
-/

namespace JitGemm.Text

def hexDigits (n : Nat) : List Char := Nat.toDigits 16 n

/-- One character inside `quote`. -/
def quoteChar (quote c : Char) : List Char :=
  if c = '\x00' then ['\\', '0']
  else if c = '\t' then ['\\', 't']
  else if c = '\r' then ['\\', 'r']
  else if c = '\n' then ['\\', 'n']
  else if c = quote || c = '\\' then ['\\', c]
  else if isEscaped c then ['\\', 'u', '\x7b'] ++ hexDigits c.toNat ++ ['\x7d']
  else [c]

def apostrophe : Char := Char.ofNat 39

def quotedChar (c : Char) : String :=
  String.ofList (apostrophe :: quoteChar apostrophe c ++ [apostrophe])

def quoted (s : String) : String :=
  String.ofList ('"' :: s.toList.flatMap (quoteChar '"') ++ ['"'])

end JitGemm.Text
