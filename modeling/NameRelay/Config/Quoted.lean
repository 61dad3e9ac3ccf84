-- SUMMARY: Text in double quotes, as messages show it.
import NameRelay.Config.Hidden

/-!
# Quoted text

A message shows a text that it complains about in double quotes. Quotes and backslashes inside have
a backslash in front, line ends and tabs have a letter, and other hidden characters are written by
number.
-/

namespace NameRelay.Quoted

/-- A character by its number. -/
def encodeNumber (c : Char) : List Char :=
  ['\\', 'u', '\x7b'] ++ Nat.toDigits 16 c.toNat ++ ['\x7d']

/-- A character inside quotes. -/
def encodeChar (c : Char) : List Char :=
  if c = '"' then ['\\', '"']
  else if c = '\\' then ['\\', '\\']
  else if c = '\n' then ['\\', 'n']
  else if c = '\r' then ['\\', 'r']
  else if c = '\t' then ['\\', 't']
  else if c = '\x00' then ['\\', '0']
  else if isHidden c then encodeNumber c
  else [c]

/-- A text in quotes. -/
def encode (text : String) : String :=
  String.ofList (['"'] ++ text.toList.flatMap encodeChar ++ ['"'])

end NameRelay.Quoted
