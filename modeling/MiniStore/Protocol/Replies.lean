import MiniStore.Lib.Text

/-!
# Replies

The wire-format builders. Every reply line ends in CRLF.
-/

namespace MiniStore

namespace Reply

def crlf : Str := ['\r', '\n']

def okWith (message : Str) : Str := '+' :: message ++ crlf

def ok : Str := okWith "OK".toList

def value (v : Str) : Str := '$' :: v ++ crlf

def nil : Str := "$(nil)".toList ++ crlf

def integer (n : Int) : Str := ':' :: (toString n).toList ++ crlf

/-- A `*N` header, then the replies as they are. -/
def rawArray (replies : List Str) : Str :=
  '*' :: (toString replies.length).toList ++ crlf ++ replies.flatten

/-- A `*N` header, then one bulk line per item. -/
def array (items : List Str) : Str := rawArray (items.map value)

def error (message : Str) : Str := "-ERR ".toList ++ message ++ crlf

def wrongType : Str :=
  "-WRONGTYPE Operation against a key holding the wrong kind of value".toList ++ crlf

def subscribe (channel : Str) (count : Nat) : Str :=
  array ["subscribe".toList, channel, (toString count).toList]

def unsubscribe (channel : Str) (count : Nat) : Str :=
  array ["unsubscribe".toList, channel, (toString count).toList]

def pushMessage (channel message : Str) : Str :=
  array ["message".toList, channel, message]

end Reply

end MiniStore
