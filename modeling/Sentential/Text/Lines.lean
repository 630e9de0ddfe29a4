/-!
# Lines of input

Input arrives as bytes and is cut at line feeds. Each line is text by itself or it is not, so
a broken line does not spoil the ones before it.
-/

namespace Sentential.Text

def lineFeed : UInt8 := 10

/-- The lines of a byte string. The last one need not end with a line feed, and there is none
behind a final line feed. -/
def byteLines (bytes : List UInt8) : List (List UInt8) :=
  let lines := bytes.splitOn lineFeed
  if lines.getLast? = some [] then lines.dropLast else lines

/-- The lines of a byte string as text, where they are text. -/
def lines (bytes : ByteArray) : List (Option String) :=
  (byteLines bytes.toList).map fun line => String.fromUTF8? line.toByteArray

end Sentential.Text
