import Tigerkin.Std.Machine

/-! # The machine of the request parser

The states and edges of `http_request_parser.cpp`, which Ragel has generated from
`http_request_parser.rl`. Of the edges of a state the first that covers a byte is taken, so an edge
may cover bytes of the edges before it. The states are those of the generated code: 1 is the start, 0
the error, and 348 and 349 are final. -/

namespace Tigerkin.Http

open Machine

inductive RequestAction where
  | mark | startField | writeField | writeValue | requestMethod | requestUri | fragment
  | startQuery | queryString | httpVersion | requestPath | done | xml | json
  deriving DecidableEq

abbrev ByteClass := List (UInt8 × UInt8)

def ch (c : Char) : UInt8 × UInt8 := (UInt8.ofNat c.toNat, UInt8.ofNat c.toNat)

def span (c d : Char) : UInt8 × UInt8 := (UInt8.ofNat c.toNat, UInt8.ofNat d.toNat)

def digit : ByteClass := [span '0' '9']
def upper : ByteClass := [span 'A' 'Z']
def alpha : ByteClass := [span 'a' 'z', span 'A' 'Z']
def xdigit : ByteClass := [span '0' '9', span 'a' 'f', span 'A' 'F']

/-- `uri_relaxed` lets three more delimiters in. -/
def subDelims (relaxed : Bool) : ByteClass :=
  [ch '!', ch '$', span '&' ',', ch ';', ch '='] ++
    if relaxed then [ch '^', ch '{', ch '}'] else []

def unreserved : ByteClass := alpha ++ digit ++ [ch '-', ch '.', ch '_', ch '~']

def regName (r : Bool) : ByteClass := unreserved ++ subDelims r
def userinfo (r : Bool) : ByteClass := ch ':' :: regName r
def segmentNc (r : Bool) : ByteClass := ch '@' :: regName r
def pchar (r : Bool) : ByteClass := ch '@' :: userinfo r
def pathChar (r : Bool) : ByteClass := ch '/' :: pchar r
def queryChar (r : Bool) : ByteClass := ch '?' :: pathChar r

def methodChar : ByteClass := digit ++ upper
def schemeRest : ByteClass := alpha ++ digit ++ [ch '+', ch '-', ch '.']

/-- `HTTP_CTL` is `(0 - 31) | 127`, which for Ragel is the bytes 0 and 127: the other control bytes
are in. -/
def token : ByteClass :=
  [(1, 8), (10, 31), ch '!', span '#' '\'', ch '*', ch '+', ch '-', ch '.', span '0' '9',
    span 'A' 'Z', span '^' 'z', ch '|', ch '~']

def content : ByteClass := [(1, 126), (128, 255)]
def xmlName : ByteClass := alpha ++ digit ++ [ch '-', ch '.']
def xmlEnd : ByteClass := [(9, 13), ch ' ', ch '/', ch '>']
def anyByte : ByteClass := [(0, 255)]

/-- Row `cs` lists the edges of the state `cs`. The repetitions of the grammar of IPv6 addresses
are literal bytes in the generated code (`6( h16 ":" )` is the byte 6 before one group). -/
def requestRows (r : Bool) : List (List (Edge RequestAction)) := [
  [],
  [⟨[ch '<'], [.mark], 194⟩, ⟨[ch '@'], [.mark], 198⟩, ⟨methodChar, [.mark], 2⟩],
  [⟨[ch ' '], [.requestMethod], 3⟩, ⟨methodChar, [], 175⟩],
  [⟨[ch ' '], [.mark, .requestPath, .requestUri], 4⟩,
   ⟨[ch '#'], [.mark, .requestPath, .requestUri], 20⟩, ⟨[ch '%'], [.mark], 24⟩,
   ⟨[ch '/'], [.mark], 33⟩, ⟨[ch '?'], [.mark, .requestPath], 29⟩, ⟨alpha, [.mark], 173⟩,
   ⟨segmentNc r, [.mark], 19⟩],
  [⟨[ch 'H'], [.mark], 5⟩],
  [⟨[ch 'T'], [], 6⟩],
  [⟨[ch 'T'], [], 7⟩],
  [⟨[ch 'P'], [], 8⟩],
  [⟨[ch '/'], [], 9⟩],
  [⟨[ch '1'], [], 10⟩],
  -- 10
  [⟨[ch '.'], [], 11⟩],
  [⟨[ch '0', ch '1'], [], 12⟩],
  [⟨[ch '\n'], [.httpVersion], 13⟩, ⟨[ch '\r'], [.httpVersion], 17⟩],
  [⟨[ch '\n'], [.startField, .done], 348⟩, ⟨[ch '\r'], [.startField], 18⟩,
   ⟨token, [.startField], 14⟩],
  [⟨[ch ':'], [.writeField], 15⟩, ⟨token, [], 14⟩],
  [⟨[ch '\n'], [.mark, .writeValue], 13⟩, ⟨[ch '\r'], [.mark, .writeValue], 17⟩,
   ⟨[ch '\t', ch ' '], [.mark], 15⟩, ⟨content, [.mark], 16⟩],
  [⟨[ch '\n'], [.writeValue], 13⟩, ⟨[ch '\r'], [.writeValue], 17⟩, ⟨content, [], 16⟩],
  [⟨[ch '\n'], [], 13⟩],
  [⟨[ch '\n'], [.done], 348⟩, ⟨[ch ':'], [.writeField], 15⟩, ⟨token, [], 14⟩],
  [⟨[ch ' '], [.requestPath, .requestUri], 4⟩, ⟨[ch '#'], [.requestPath, .requestUri], 20⟩,
   ⟨[ch '%'], [], 24⟩, ⟨[ch '/'], [], 26⟩, ⟨[ch '?'], [.requestPath], 29⟩, ⟨segmentNc r, [], 19⟩],
  -- 20
  [⟨[ch ' '], [.mark, .fragment], 4⟩, ⟨[ch '%'], [.mark], 22⟩, ⟨queryChar r, [.mark], 21⟩],
  [⟨[ch ' '], [.fragment], 4⟩, ⟨[ch '%'], [], 22⟩, ⟨queryChar r, [], 21⟩],
  [⟨xdigit, [], 23⟩],
  [⟨xdigit, [], 21⟩],
  [⟨xdigit, [], 25⟩],
  [⟨xdigit, [], 19⟩],
  [⟨[ch ' '], [.requestPath, .requestUri], 4⟩, ⟨[ch '#'], [.requestPath, .requestUri], 20⟩,
   ⟨[ch '%'], [], 27⟩, ⟨[ch '?'], [.requestPath], 29⟩, ⟨pathChar r, [], 26⟩],
  [⟨xdigit, [], 28⟩],
  [⟨xdigit, [], 26⟩],
  [⟨[ch ' '], [.startQuery, .queryString, .requestUri], 4⟩,
   ⟨[ch '#'], [.startQuery, .queryString, .requestUri], 20⟩, ⟨[ch '%'], [.startQuery], 31⟩,
   ⟨queryChar r, [.startQuery], 30⟩],
  -- 30
  [⟨[ch ' '], [.queryString, .requestUri], 4⟩, ⟨[ch '#'], [.queryString, .requestUri], 20⟩,
   ⟨[ch '%'], [], 31⟩, ⟨queryChar r, [], 30⟩],
  [⟨xdigit, [], 32⟩],
  [⟨xdigit, [], 30⟩],
  [⟨[ch ' '], [.requestPath, .requestUri], 4⟩, ⟨[ch '#'], [.requestPath, .requestUri], 20⟩,
   ⟨[ch '%'], [], 27⟩, ⟨[ch '/'], [], 34⟩, ⟨[ch '?'], [.requestPath], 29⟩, ⟨pchar r, [], 26⟩],
  [⟨[ch ' '], [.requestPath, .requestUri], 4⟩, ⟨[ch '#'], [.requestPath, .requestUri], 20⟩,
   ⟨[ch '%'], [], 36⟩, ⟨[ch '/'], [], 26⟩, ⟨[ch ':'], [], 38⟩, ⟨[ch '?'], [.requestPath], 29⟩,
   ⟨[ch '@'], [], 42⟩, ⟨[ch '['], [], 47⟩, ⟨pchar r, [], 35⟩],
  [⟨[ch ' '], [.requestPath, .requestUri], 4⟩, ⟨[ch '#'], [.requestPath, .requestUri], 20⟩,
   ⟨[ch '%'], [], 36⟩, ⟨[ch '/'], [], 26⟩, ⟨[ch ':'], [], 38⟩, ⟨[ch '?'], [.requestPath], 29⟩,
   ⟨[ch '@'], [], 42⟩, ⟨pchar r, [], 35⟩],
  [⟨xdigit, [], 37⟩],
  [⟨xdigit, [], 35⟩],
  [⟨[ch ' '], [.requestPath, .requestUri], 4⟩, ⟨[ch '#'], [.requestPath, .requestUri], 20⟩,
   ⟨[ch '%'], [], 40⟩, ⟨[ch '/'], [], 26⟩, ⟨[ch '?'], [.requestPath], 29⟩, ⟨[ch '@'], [], 42⟩,
   ⟨digit, [], 38⟩, ⟨pchar r, [], 39⟩],
  [⟨[ch '%'], [], 40⟩, ⟨[ch '@'], [], 42⟩, ⟨pchar r, [], 39⟩],
  -- 40
  [⟨xdigit, [], 41⟩],
  [⟨xdigit, [], 39⟩],
  [⟨[ch ' '], [.requestPath, .requestUri], 4⟩, ⟨[ch '#'], [.requestPath, .requestUri], 20⟩,
   ⟨[ch '%'], [], 44⟩, ⟨[ch '/'], [], 26⟩, ⟨[ch ':'], [], 46⟩, ⟨[ch '?'], [.requestPath], 29⟩,
   ⟨[ch '['], [], 47⟩, ⟨regName r, [], 43⟩],
  [⟨[ch ' '], [.requestPath, .requestUri], 4⟩, ⟨[ch '#'], [.requestPath, .requestUri], 20⟩,
   ⟨[ch '%'], [], 44⟩, ⟨[ch '/'], [], 26⟩, ⟨[ch ':'], [], 46⟩, ⟨[ch '?'], [.requestPath], 29⟩,
   ⟨regName r, [], 43⟩],
  [⟨xdigit, [], 45⟩],
  [⟨xdigit, [], 43⟩],
  [⟨[ch ' '], [.requestPath, .requestUri], 4⟩, ⟨[ch '#'], [.requestPath, .requestUri], 20⟩,
   ⟨[ch '/'], [], 26⟩, ⟨[ch '?'], [.requestPath], 29⟩, ⟨digit, [], 46⟩],
  [⟨[(6, 6)], [], 48⟩, ⟨[ch ':'], [], 167⟩, ⟨[ch 'v'], [], 169⟩, ⟨xdigit, [], 91⟩],
  [⟨xdigit, [], 49⟩],
  [⟨[ch ':'], [], 53⟩, ⟨xdigit, [], 50⟩],
  -- 50
  [⟨[ch ':'], [], 53⟩, ⟨xdigit, [], 51⟩],
  [⟨[ch ':'], [], 53⟩, ⟨xdigit, [], 52⟩],
  [⟨[ch ':'], [], 53⟩],
  [⟨[ch '1'], [], 84⟩, ⟨[ch '2'], [], 87⟩, ⟨digit, [], 54⟩, ⟨xdigit, [], 90⟩],
  [⟨[ch '.'], [], 55⟩, ⟨[ch ':'], [], 80⟩, ⟨xdigit, [], 77⟩],
  [⟨[ch '1'], [], 72⟩, ⟨[ch '2'], [], 74⟩, ⟨digit, [], 56⟩],
  [⟨[ch '.'], [], 57⟩],
  [⟨[ch '1'], [], 67⟩, ⟨[ch '2'], [], 69⟩, ⟨digit, [], 58⟩],
  [⟨[ch '.'], [], 59⟩],
  [⟨[ch '1'], [], 62⟩, ⟨[ch '2'], [], 64⟩, ⟨digit, [], 60⟩],
  -- 60
  [⟨[ch ']'], [], 61⟩],
  [⟨[ch ' '], [.requestPath, .requestUri], 4⟩, ⟨[ch '#'], [.requestPath, .requestUri], 20⟩,
   ⟨[ch '/'], [], 26⟩, ⟨[ch ':'], [], 46⟩, ⟨[ch '?'], [.requestPath], 29⟩],
  [⟨[ch ']'], [], 61⟩, ⟨digit, [], 63⟩],
  [⟨[ch ']'], [], 61⟩, ⟨digit, [], 60⟩],
  [⟨[ch '0'], [], 65⟩, ⟨[ch '5'], [], 66⟩, ⟨[ch ']'], [], 61⟩],
  [⟨digit, [], 60⟩],
  [⟨[ch '0'], [], 60⟩],
  [⟨[ch '.'], [], 59⟩, ⟨digit, [], 68⟩],
  [⟨[ch '.'], [], 59⟩, ⟨digit, [], 58⟩],
  [⟨[ch '.'], [], 59⟩, ⟨[ch '0'], [], 70⟩, ⟨[ch '5'], [], 71⟩],
  -- 70
  [⟨digit, [], 58⟩],
  [⟨[ch '0'], [], 58⟩],
  [⟨[ch '.'], [], 57⟩, ⟨digit, [], 73⟩],
  [⟨[ch '.'], [], 57⟩, ⟨digit, [], 56⟩],
  [⟨[ch '.'], [], 57⟩, ⟨[ch '0'], [], 75⟩, ⟨[ch '5'], [], 76⟩],
  [⟨digit, [], 56⟩],
  [⟨[ch '0'], [], 56⟩],
  [⟨[ch ':'], [], 80⟩, ⟨xdigit, [], 78⟩],
  [⟨[ch ':'], [], 80⟩, ⟨xdigit, [], 79⟩],
  [⟨[ch ':'], [], 80⟩],
  -- 80
  [⟨xdigit, [], 81⟩],
  [⟨[ch ']'], [], 61⟩, ⟨xdigit, [], 82⟩],
  [⟨[ch ']'], [], 61⟩, ⟨xdigit, [], 83⟩],
  [⟨[ch ']'], [], 61⟩, ⟨xdigit, [], 60⟩],
  [⟨[ch '.'], [], 55⟩, ⟨[ch ':'], [], 80⟩, ⟨digit, [], 85⟩, ⟨xdigit, [], 77⟩],
  [⟨[ch '.'], [], 55⟩, ⟨[ch ':'], [], 80⟩, ⟨digit, [], 86⟩, ⟨xdigit, [], 78⟩],
  [⟨[ch '.'], [], 55⟩, ⟨[ch ':'], [], 80⟩, ⟨xdigit, [], 79⟩],
  [⟨[ch '.'], [], 55⟩, ⟨[ch '0'], [], 88⟩, ⟨[ch '5'], [], 89⟩, ⟨[ch ':'], [], 80⟩,
   ⟨xdigit, [], 77⟩],
  [⟨[ch ':'], [], 80⟩, ⟨digit, [], 86⟩, ⟨xdigit, [], 78⟩],
  [⟨[ch '0'], [], 86⟩, ⟨[ch ':'], [], 80⟩, ⟨xdigit, [], 78⟩],
  -- 90
  [⟨[ch ':'], [], 80⟩, ⟨xdigit, [], 77⟩],
  [⟨[ch ':'], [], 95⟩, ⟨xdigit, [], 92⟩],
  [⟨[ch ':'], [], 95⟩, ⟨xdigit, [], 93⟩],
  [⟨[ch ':'], [], 95⟩, ⟨xdigit, [], 94⟩],
  [⟨[ch ':'], [], 95⟩],
  [⟨[ch ':'], [], 166⟩, ⟨xdigit, [], 96⟩],
  [⟨[ch ':'], [], 100⟩, ⟨xdigit, [], 97⟩],
  [⟨[ch ':'], [], 100⟩, ⟨xdigit, [], 98⟩],
  [⟨[ch ':'], [], 100⟩, ⟨xdigit, [], 99⟩],
  [⟨[ch ':'], [], 100⟩],
  -- 100
  [⟨[ch ':'], [], 165⟩, ⟨xdigit, [], 101⟩],
  [⟨[ch ':'], [], 105⟩, ⟨xdigit, [], 102⟩],
  [⟨[ch ':'], [], 105⟩, ⟨xdigit, [], 103⟩],
  [⟨[ch ':'], [], 105⟩, ⟨xdigit, [], 104⟩],
  [⟨[ch ':'], [], 105⟩],
  [⟨[ch ':'], [], 164⟩, ⟨xdigit, [], 106⟩],
  [⟨[ch ':'], [], 110⟩, ⟨xdigit, [], 107⟩],
  [⟨[ch ':'], [], 110⟩, ⟨xdigit, [], 108⟩],
  [⟨[ch ':'], [], 110⟩, ⟨xdigit, [], 109⟩],
  [⟨[ch ':'], [], 110⟩],
  -- 110
  [⟨[ch ':'], [], 163⟩, ⟨xdigit, [], 111⟩],
  [⟨[ch ':'], [], 115⟩, ⟨xdigit, [], 112⟩],
  [⟨[ch ':'], [], 115⟩, ⟨xdigit, [], 113⟩],
  [⟨[ch ':'], [], 115⟩, ⟨xdigit, [], 114⟩],
  [⟨[ch ':'], [], 115⟩],
  [⟨[ch ':'], [], 151⟩, ⟨xdigit, [], 116⟩],
  [⟨[ch ':'], [], 120⟩, ⟨xdigit, [], 117⟩],
  [⟨[ch ':'], [], 120⟩, ⟨xdigit, [], 118⟩],
  [⟨[ch ':'], [], 120⟩, ⟨xdigit, [], 119⟩],
  [⟨[ch ':'], [], 120⟩],
  -- 120
  [⟨[ch ':'], [], 150⟩, ⟨xdigit, [], 121⟩],
  [⟨[ch ':'], [], 125⟩, ⟨xdigit, [], 122⟩],
  [⟨[ch ':'], [], 125⟩, ⟨xdigit, [], 123⟩],
  [⟨[ch ':'], [], 125⟩, ⟨xdigit, [], 124⟩],
  [⟨[ch ':'], [], 125⟩],
  [⟨[ch ':'], [], 126⟩, ⟨xdigit, [], 121⟩],
  [⟨[ch '1'], [], 143⟩, ⟨[ch '2'], [], 146⟩, ⟨[ch ']'], [], 61⟩, ⟨[(2, 3)], [], 48⟩,
   ⟨digit, [], 127⟩, ⟨xdigit, [], 149⟩],
  [⟨[ch '.'], [], 55⟩, ⟨[ch ':'], [], 131⟩, ⟨[ch ']'], [], 61⟩, ⟨xdigit, [], 128⟩],
  [⟨[ch ':'], [], 131⟩, ⟨[ch ']'], [], 61⟩, ⟨xdigit, [], 129⟩],
  [⟨[ch ':'], [], 131⟩, ⟨[ch ']'], [], 61⟩, ⟨xdigit, [], 130⟩],
  -- 130
  [⟨[ch ':'], [], 131⟩, ⟨[ch ']'], [], 61⟩],
  [⟨[ch '1'], [], 136⟩, ⟨[ch '2'], [], 139⟩, ⟨digit, [], 132⟩, ⟨xdigit, [], 142⟩],
  [⟨[ch '.'], [], 55⟩, ⟨[ch ':'], [], 80⟩, ⟨[ch ']'], [], 61⟩, ⟨xdigit, [], 133⟩],
  [⟨[ch ':'], [], 80⟩, ⟨[ch ']'], [], 61⟩, ⟨xdigit, [], 134⟩],
  [⟨[ch ':'], [], 80⟩, ⟨[ch ']'], [], 61⟩, ⟨xdigit, [], 135⟩],
  [⟨[ch ':'], [], 80⟩, ⟨[ch ']'], [], 61⟩],
  [⟨[ch '.'], [], 55⟩, ⟨[ch ':'], [], 80⟩, ⟨[ch ']'], [], 61⟩, ⟨digit, [], 137⟩, ⟨xdigit, [], 133⟩],
  [⟨[ch '.'], [], 55⟩, ⟨[ch ':'], [], 80⟩, ⟨[ch ']'], [], 61⟩, ⟨digit, [], 138⟩, ⟨xdigit, [], 134⟩],
  [⟨[ch '.'], [], 55⟩, ⟨[ch ':'], [], 80⟩, ⟨[ch ']'], [], 61⟩, ⟨xdigit, [], 135⟩],
  [⟨[ch '.'], [], 55⟩, ⟨[ch '0'], [], 140⟩, ⟨[ch '5'], [], 141⟩, ⟨[ch ':'], [], 80⟩,
   ⟨[ch ']'], [], 61⟩, ⟨xdigit, [], 133⟩],
  -- 140
  [⟨[ch ':'], [], 80⟩, ⟨[ch ']'], [], 61⟩, ⟨digit, [], 138⟩, ⟨xdigit, [], 134⟩],
  [⟨[ch '0'], [], 138⟩, ⟨[ch ':'], [], 80⟩, ⟨[ch ']'], [], 61⟩, ⟨xdigit, [], 134⟩],
  [⟨[ch ':'], [], 80⟩, ⟨[ch ']'], [], 61⟩, ⟨xdigit, [], 133⟩],
  [⟨[ch '.'], [], 55⟩, ⟨[ch ':'], [], 131⟩, ⟨[ch ']'], [], 61⟩, ⟨digit, [], 144⟩,
   ⟨xdigit, [], 128⟩],
  [⟨[ch '.'], [], 55⟩, ⟨[ch ':'], [], 131⟩, ⟨[ch ']'], [], 61⟩, ⟨digit, [], 145⟩,
   ⟨xdigit, [], 129⟩],
  [⟨[ch '.'], [], 55⟩, ⟨[ch ':'], [], 131⟩, ⟨[ch ']'], [], 61⟩, ⟨xdigit, [], 130⟩],
  [⟨[ch '.'], [], 55⟩, ⟨[ch '0'], [], 147⟩, ⟨[ch '5'], [], 148⟩, ⟨[ch ':'], [], 131⟩,
   ⟨[ch ']'], [], 61⟩, ⟨xdigit, [], 128⟩],
  [⟨[ch ':'], [], 131⟩, ⟨[ch ']'], [], 61⟩, ⟨digit, [], 145⟩, ⟨xdigit, [], 129⟩],
  [⟨[ch '0'], [], 145⟩, ⟨[ch ':'], [], 131⟩, ⟨[ch ']'], [], 61⟩, ⟨xdigit, [], 129⟩],
  [⟨[ch ':'], [], 131⟩, ⟨[ch ']'], [], 61⟩, ⟨xdigit, [], 128⟩],
  -- 150
  [⟨[ch '1'], [], 143⟩, ⟨[ch '2'], [], 146⟩, ⟨[(2, 3)], [], 48⟩, ⟨digit, [], 127⟩,
   ⟨xdigit, [], 149⟩],
  [⟨[ch '1'], [], 156⟩, ⟨[ch '2'], [], 159⟩, ⟨[(2, 3)], [], 48⟩, ⟨digit, [], 152⟩,
   ⟨xdigit, [], 162⟩],
  [⟨[ch '.'], [], 55⟩, ⟨[ch ':'], [], 131⟩, ⟨xdigit, [], 153⟩],
  [⟨[ch ':'], [], 131⟩, ⟨xdigit, [], 154⟩],
  [⟨[ch ':'], [], 131⟩, ⟨xdigit, [], 155⟩],
  [⟨[ch ':'], [], 131⟩],
  [⟨[ch '.'], [], 55⟩, ⟨[ch ':'], [], 131⟩, ⟨digit, [], 157⟩, ⟨xdigit, [], 153⟩],
  [⟨[ch '.'], [], 55⟩, ⟨[ch ':'], [], 131⟩, ⟨digit, [], 158⟩, ⟨xdigit, [], 154⟩],
  [⟨[ch '.'], [], 55⟩, ⟨[ch ':'], [], 131⟩, ⟨xdigit, [], 155⟩],
  [⟨[ch '.'], [], 55⟩, ⟨[ch '0'], [], 160⟩, ⟨[ch '5'], [], 161⟩, ⟨[ch ':'], [], 131⟩,
   ⟨xdigit, [], 153⟩],
  -- 160
  [⟨[ch ':'], [], 131⟩, ⟨digit, [], 158⟩, ⟨xdigit, [], 154⟩],
  [⟨[ch '0'], [], 158⟩, ⟨[ch ':'], [], 131⟩, ⟨xdigit, [], 154⟩],
  [⟨[ch ':'], [], 131⟩, ⟨xdigit, [], 153⟩],
  [⟨[(2, 3)], [], 48⟩, ⟨xdigit, [], 49⟩],
  [⟨[(2, 3)], [], 48⟩],
  [⟨[(3, 3)], [], 48⟩],
  [⟨[(4, 4)], [], 48⟩],
  [⟨[ch ':'], [], 168⟩],
  [⟨[ch '1'], [], 143⟩, ⟨[ch '2'], [], 146⟩, ⟨[ch ']'], [], 61⟩, ⟨digit, [], 127⟩,
   ⟨xdigit, [], 149⟩, ⟨[(2, 5)], [], 48⟩],
  [⟨xdigit, [], 170⟩],
  -- 170
  [⟨[ch '.'], [], 171⟩, ⟨xdigit, [], 170⟩],
  [⟨userinfo r, [], 172⟩],
  [⟨[ch ']'], [], 61⟩, ⟨userinfo r, [], 172⟩],
  [⟨[ch ' '], [.requestPath, .requestUri], 4⟩, ⟨[ch '#'], [.requestPath, .requestUri], 20⟩,
   ⟨[ch '%'], [], 24⟩, ⟨[ch '/'], [], 26⟩, ⟨[ch ':'], [], 174⟩, ⟨[ch '?'], [.requestPath], 29⟩,
   ⟨schemeRest, [], 173⟩, ⟨pchar r, [], 19⟩],
  [⟨[ch ' '], [.mark, .requestPath, .requestUri], 4⟩,
   ⟨[ch '#'], [.mark, .requestPath, .requestUri], 20⟩, ⟨[ch '%'], [.mark], 27⟩,
   ⟨[ch '/'], [.mark], 33⟩, ⟨[ch '?'], [.mark, .requestPath], 29⟩, ⟨pchar r, [.mark], 26⟩],
  [⟨[ch ' '], [.requestMethod], 3⟩, ⟨methodChar, [], 176⟩],
  [⟨[ch ' '], [.requestMethod], 3⟩, ⟨methodChar, [], 177⟩],
  [⟨[ch ' '], [.requestMethod], 3⟩, ⟨methodChar, [], 178⟩],
  [⟨[ch ' '], [.requestMethod], 3⟩, ⟨methodChar, [], 179⟩],
  [⟨[ch ' '], [.requestMethod], 3⟩, ⟨methodChar, [], 180⟩],
  -- 180
  [⟨[ch ' '], [.requestMethod], 3⟩, ⟨methodChar, [], 181⟩],
  [⟨[ch ' '], [.requestMethod], 3⟩, ⟨methodChar, [], 182⟩],
  [⟨[ch ' '], [.requestMethod], 3⟩, ⟨methodChar, [], 183⟩],
  [⟨[ch ' '], [.requestMethod], 3⟩, ⟨methodChar, [], 184⟩],
  [⟨[ch ' '], [.requestMethod], 3⟩, ⟨methodChar, [], 185⟩],
  [⟨[ch ' '], [.requestMethod], 3⟩, ⟨methodChar, [], 186⟩],
  [⟨[ch ' '], [.requestMethod], 3⟩, ⟨methodChar, [], 187⟩],
  [⟨[ch ' '], [.requestMethod], 3⟩, ⟨methodChar, [], 188⟩],
  [⟨[ch ' '], [.requestMethod], 3⟩, ⟨methodChar, [], 189⟩],
  [⟨[ch ' '], [.requestMethod], 3⟩, ⟨methodChar, [], 190⟩],
  -- 190
  [⟨[ch ' '], [.requestMethod], 3⟩, ⟨methodChar, [], 191⟩],
  [⟨[ch ' '], [.requestMethod], 3⟩, ⟨methodChar, [], 192⟩],
  [⟨[ch ' '], [.requestMethod], 3⟩, ⟨methodChar, [], 193⟩],
  [⟨[ch ' '], [.requestMethod], 3⟩],
  [⟨xmlName, [], 195⟩],
  [⟨xmlName, [], 195⟩, ⟨xmlEnd, [.requestPath], 196⟩],
  [⟨[ch '>'], [], 197⟩, ⟨anyByte, [], 196⟩],
  [⟨[(0, 0)], [.xml, .done], 349⟩, ⟨[ch '>'], [], 197⟩, ⟨anyByte, [], 196⟩],
  [⟨[ch ' '], [.requestPath], 199⟩, ⟨[ch '%'], [], 203⟩, ⟨[ch '/'], [], 208⟩,
   ⟨segmentNc r, [], 202⟩],
  [⟨[ch '{'], [.mark], 200⟩],
  -- 200
  [⟨[ch '}'], [], 201⟩, ⟨anyByte, [], 200⟩],
  [⟨[(0, 0)], [.json, .done], 349⟩, ⟨[ch '}'], [], 201⟩, ⟨anyByte, [], 200⟩],
  [⟨[ch ' '], [.requestPath], 199⟩, ⟨[ch '%'], [], 203⟩, ⟨[ch '/'], [], 205⟩,
   ⟨segmentNc r, [], 202⟩],
  [⟨xdigit, [], 204⟩],
  [⟨xdigit, [], 202⟩],
  [⟨[ch ' '], [.requestPath], 199⟩, ⟨[ch '%'], [], 206⟩, ⟨pathChar r, [], 205⟩],
  [⟨xdigit, [], 207⟩],
  [⟨xdigit, [], 205⟩],
  [⟨[ch ' '], [.requestPath], 199⟩, ⟨[ch '%'], [], 206⟩, ⟨[ch '/'], [], 209⟩, ⟨pchar r, [], 205⟩],
  [⟨[ch ' '], [.requestPath], 199⟩, ⟨[ch '%'], [], 211⟩, ⟨[ch '/'], [], 205⟩, ⟨[ch ':'], [], 213⟩,
   ⟨[ch '@'], [], 217⟩, ⟨[ch '['], [], 222⟩, ⟨pchar r, [], 210⟩],
  -- 210
  [⟨[ch ' '], [.requestPath], 199⟩, ⟨[ch '%'], [], 211⟩, ⟨[ch '/'], [], 205⟩, ⟨[ch ':'], [], 213⟩,
   ⟨[ch '@'], [], 217⟩, ⟨pchar r, [], 210⟩],
  [⟨xdigit, [], 212⟩],
  [⟨xdigit, [], 210⟩],
  [⟨[ch ' '], [.requestPath], 199⟩, ⟨[ch '%'], [], 215⟩, ⟨[ch '/'], [], 205⟩, ⟨[ch '@'], [], 217⟩,
   ⟨digit, [], 213⟩, ⟨pchar r, [], 214⟩],
  [⟨[ch '%'], [], 215⟩, ⟨[ch '@'], [], 217⟩, ⟨pchar r, [], 214⟩],
  [⟨xdigit, [], 216⟩],
  [⟨xdigit, [], 214⟩],
  [⟨[ch ' '], [.requestPath], 199⟩, ⟨[ch '%'], [], 219⟩, ⟨[ch '/'], [], 205⟩, ⟨[ch ':'], [], 221⟩,
   ⟨[ch '['], [], 222⟩, ⟨regName r, [], 218⟩],
  [⟨[ch ' '], [.requestPath], 199⟩, ⟨[ch '%'], [], 219⟩, ⟨[ch '/'], [], 205⟩, ⟨[ch ':'], [], 221⟩,
   ⟨regName r, [], 218⟩],
  [⟨xdigit, [], 220⟩],
  -- 220
  [⟨xdigit, [], 218⟩],
  [⟨[ch ' '], [.requestPath], 199⟩, ⟨[ch '/'], [], 205⟩, ⟨digit, [], 221⟩],
  [⟨[(6, 6)], [], 223⟩, ⟨[ch ':'], [], 342⟩, ⟨[ch 'v'], [], 344⟩, ⟨xdigit, [], 266⟩],
  [⟨xdigit, [], 224⟩],
  [⟨[ch ':'], [], 228⟩, ⟨xdigit, [], 225⟩],
  [⟨[ch ':'], [], 228⟩, ⟨xdigit, [], 226⟩],
  [⟨[ch ':'], [], 228⟩, ⟨xdigit, [], 227⟩],
  [⟨[ch ':'], [], 228⟩],
  [⟨[ch '1'], [], 259⟩, ⟨[ch '2'], [], 262⟩, ⟨digit, [], 229⟩, ⟨xdigit, [], 265⟩],
  [⟨[ch '.'], [], 230⟩, ⟨[ch ':'], [], 255⟩, ⟨xdigit, [], 252⟩],
  -- 230
  [⟨[ch '1'], [], 247⟩, ⟨[ch '2'], [], 249⟩, ⟨digit, [], 231⟩],
  [⟨[ch '.'], [], 232⟩],
  [⟨[ch '1'], [], 242⟩, ⟨[ch '2'], [], 244⟩, ⟨digit, [], 233⟩],
  [⟨[ch '.'], [], 234⟩],
  [⟨[ch '1'], [], 237⟩, ⟨[ch '2'], [], 239⟩, ⟨digit, [], 235⟩],
  [⟨[ch ']'], [], 236⟩],
  [⟨[ch ' '], [.requestPath], 199⟩, ⟨[ch '/'], [], 205⟩, ⟨[ch ':'], [], 221⟩],
  [⟨[ch ']'], [], 236⟩, ⟨digit, [], 238⟩],
  [⟨[ch ']'], [], 236⟩, ⟨digit, [], 235⟩],
  [⟨[ch '0'], [], 240⟩, ⟨[ch '5'], [], 241⟩, ⟨[ch ']'], [], 236⟩],
  -- 240
  [⟨digit, [], 235⟩],
  [⟨[ch '0'], [], 235⟩],
  [⟨[ch '.'], [], 234⟩, ⟨digit, [], 243⟩],
  [⟨[ch '.'], [], 234⟩, ⟨digit, [], 233⟩],
  [⟨[ch '.'], [], 234⟩, ⟨[ch '0'], [], 245⟩, ⟨[ch '5'], [], 246⟩],
  [⟨digit, [], 233⟩],
  [⟨[ch '0'], [], 233⟩],
  [⟨[ch '.'], [], 232⟩, ⟨digit, [], 248⟩],
  [⟨[ch '.'], [], 232⟩, ⟨digit, [], 231⟩],
  [⟨[ch '.'], [], 232⟩, ⟨[ch '0'], [], 250⟩, ⟨[ch '5'], [], 251⟩],
  -- 250
  [⟨digit, [], 231⟩],
  [⟨[ch '0'], [], 231⟩],
  [⟨[ch ':'], [], 255⟩, ⟨xdigit, [], 253⟩],
  [⟨[ch ':'], [], 255⟩, ⟨xdigit, [], 254⟩],
  [⟨[ch ':'], [], 255⟩],
  [⟨xdigit, [], 256⟩],
  [⟨[ch ']'], [], 236⟩, ⟨xdigit, [], 257⟩],
  [⟨[ch ']'], [], 236⟩, ⟨xdigit, [], 258⟩],
  [⟨[ch ']'], [], 236⟩, ⟨xdigit, [], 235⟩],
  [⟨[ch '.'], [], 230⟩, ⟨[ch ':'], [], 255⟩, ⟨digit, [], 260⟩, ⟨xdigit, [], 252⟩],
  -- 260
  [⟨[ch '.'], [], 230⟩, ⟨[ch ':'], [], 255⟩, ⟨digit, [], 261⟩, ⟨xdigit, [], 253⟩],
  [⟨[ch '.'], [], 230⟩, ⟨[ch ':'], [], 255⟩, ⟨xdigit, [], 254⟩],
  [⟨[ch '.'], [], 230⟩, ⟨[ch '0'], [], 263⟩, ⟨[ch '5'], [], 264⟩, ⟨[ch ':'], [], 255⟩,
   ⟨xdigit, [], 252⟩],
  [⟨[ch ':'], [], 255⟩, ⟨digit, [], 261⟩, ⟨xdigit, [], 253⟩],
  [⟨[ch '0'], [], 261⟩, ⟨[ch ':'], [], 255⟩, ⟨xdigit, [], 253⟩],
  [⟨[ch ':'], [], 255⟩, ⟨xdigit, [], 252⟩],
  [⟨[ch ':'], [], 270⟩, ⟨xdigit, [], 267⟩],
  [⟨[ch ':'], [], 270⟩, ⟨xdigit, [], 268⟩],
  [⟨[ch ':'], [], 270⟩, ⟨xdigit, [], 269⟩],
  [⟨[ch ':'], [], 270⟩],
  -- 270
  [⟨[ch ':'], [], 341⟩, ⟨xdigit, [], 271⟩],
  [⟨[ch ':'], [], 275⟩, ⟨xdigit, [], 272⟩],
  [⟨[ch ':'], [], 275⟩, ⟨xdigit, [], 273⟩],
  [⟨[ch ':'], [], 275⟩, ⟨xdigit, [], 274⟩],
  [⟨[ch ':'], [], 275⟩],
  [⟨[ch ':'], [], 340⟩, ⟨xdigit, [], 276⟩],
  [⟨[ch ':'], [], 280⟩, ⟨xdigit, [], 277⟩],
  [⟨[ch ':'], [], 280⟩, ⟨xdigit, [], 278⟩],
  [⟨[ch ':'], [], 280⟩, ⟨xdigit, [], 279⟩],
  [⟨[ch ':'], [], 280⟩],
  -- 280
  [⟨[ch ':'], [], 339⟩, ⟨xdigit, [], 281⟩],
  [⟨[ch ':'], [], 285⟩, ⟨xdigit, [], 282⟩],
  [⟨[ch ':'], [], 285⟩, ⟨xdigit, [], 283⟩],
  [⟨[ch ':'], [], 285⟩, ⟨xdigit, [], 284⟩],
  [⟨[ch ':'], [], 285⟩],
  [⟨[ch ':'], [], 338⟩, ⟨xdigit, [], 286⟩],
  [⟨[ch ':'], [], 290⟩, ⟨xdigit, [], 287⟩],
  [⟨[ch ':'], [], 290⟩, ⟨xdigit, [], 288⟩],
  [⟨[ch ':'], [], 290⟩, ⟨xdigit, [], 289⟩],
  [⟨[ch ':'], [], 290⟩],
  -- 290
  [⟨[ch ':'], [], 326⟩, ⟨xdigit, [], 291⟩],
  [⟨[ch ':'], [], 295⟩, ⟨xdigit, [], 292⟩],
  [⟨[ch ':'], [], 295⟩, ⟨xdigit, [], 293⟩],
  [⟨[ch ':'], [], 295⟩, ⟨xdigit, [], 294⟩],
  [⟨[ch ':'], [], 295⟩],
  [⟨[ch ':'], [], 325⟩, ⟨xdigit, [], 296⟩],
  [⟨[ch ':'], [], 300⟩, ⟨xdigit, [], 297⟩],
  [⟨[ch ':'], [], 300⟩, ⟨xdigit, [], 298⟩],
  [⟨[ch ':'], [], 300⟩, ⟨xdigit, [], 299⟩],
  [⟨[ch ':'], [], 300⟩],
  -- 300
  [⟨[ch ':'], [], 301⟩, ⟨xdigit, [], 296⟩],
  [⟨[ch '1'], [], 318⟩, ⟨[ch '2'], [], 321⟩, ⟨[ch ']'], [], 236⟩, ⟨[(2, 3)], [], 223⟩,
   ⟨digit, [], 302⟩, ⟨xdigit, [], 324⟩],
  [⟨[ch '.'], [], 230⟩, ⟨[ch ':'], [], 306⟩, ⟨[ch ']'], [], 236⟩, ⟨xdigit, [], 303⟩],
  [⟨[ch ':'], [], 306⟩, ⟨[ch ']'], [], 236⟩, ⟨xdigit, [], 304⟩],
  [⟨[ch ':'], [], 306⟩, ⟨[ch ']'], [], 236⟩, ⟨xdigit, [], 305⟩],
  [⟨[ch ':'], [], 306⟩, ⟨[ch ']'], [], 236⟩],
  [⟨[ch '1'], [], 311⟩, ⟨[ch '2'], [], 314⟩, ⟨digit, [], 307⟩, ⟨xdigit, [], 317⟩],
  [⟨[ch '.'], [], 230⟩, ⟨[ch ':'], [], 255⟩, ⟨[ch ']'], [], 236⟩, ⟨xdigit, [], 308⟩],
  [⟨[ch ':'], [], 255⟩, ⟨[ch ']'], [], 236⟩, ⟨xdigit, [], 309⟩],
  [⟨[ch ':'], [], 255⟩, ⟨[ch ']'], [], 236⟩, ⟨xdigit, [], 310⟩],
  -- 310
  [⟨[ch ':'], [], 255⟩, ⟨[ch ']'], [], 236⟩],
  [⟨[ch '.'], [], 230⟩, ⟨[ch ':'], [], 255⟩, ⟨[ch ']'], [], 236⟩, ⟨digit, [], 312⟩,
   ⟨xdigit, [], 308⟩],
  [⟨[ch '.'], [], 230⟩, ⟨[ch ':'], [], 255⟩, ⟨[ch ']'], [], 236⟩, ⟨digit, [], 313⟩,
   ⟨xdigit, [], 309⟩],
  [⟨[ch '.'], [], 230⟩, ⟨[ch ':'], [], 255⟩, ⟨[ch ']'], [], 236⟩, ⟨xdigit, [], 310⟩],
  [⟨[ch '.'], [], 230⟩, ⟨[ch '0'], [], 315⟩, ⟨[ch '5'], [], 316⟩, ⟨[ch ':'], [], 255⟩,
   ⟨[ch ']'], [], 236⟩, ⟨xdigit, [], 308⟩],
  [⟨[ch ':'], [], 255⟩, ⟨[ch ']'], [], 236⟩, ⟨digit, [], 313⟩, ⟨xdigit, [], 309⟩],
  [⟨[ch '0'], [], 313⟩, ⟨[ch ':'], [], 255⟩, ⟨[ch ']'], [], 236⟩, ⟨xdigit, [], 309⟩],
  [⟨[ch ':'], [], 255⟩, ⟨[ch ']'], [], 236⟩, ⟨xdigit, [], 308⟩],
  [⟨[ch '.'], [], 230⟩, ⟨[ch ':'], [], 306⟩, ⟨[ch ']'], [], 236⟩, ⟨digit, [], 319⟩,
   ⟨xdigit, [], 303⟩],
  [⟨[ch '.'], [], 230⟩, ⟨[ch ':'], [], 306⟩, ⟨[ch ']'], [], 236⟩, ⟨digit, [], 320⟩,
   ⟨xdigit, [], 304⟩],
  -- 320
  [⟨[ch '.'], [], 230⟩, ⟨[ch ':'], [], 306⟩, ⟨[ch ']'], [], 236⟩, ⟨xdigit, [], 305⟩],
  [⟨[ch '.'], [], 230⟩, ⟨[ch '0'], [], 322⟩, ⟨[ch '5'], [], 323⟩, ⟨[ch ':'], [], 306⟩,
   ⟨[ch ']'], [], 236⟩, ⟨xdigit, [], 303⟩],
  [⟨[ch ':'], [], 306⟩, ⟨[ch ']'], [], 236⟩, ⟨digit, [], 320⟩, ⟨xdigit, [], 304⟩],
  [⟨[ch '0'], [], 320⟩, ⟨[ch ':'], [], 306⟩, ⟨[ch ']'], [], 236⟩, ⟨xdigit, [], 304⟩],
  [⟨[ch ':'], [], 306⟩, ⟨[ch ']'], [], 236⟩, ⟨xdigit, [], 303⟩],
  [⟨[ch '1'], [], 318⟩, ⟨[ch '2'], [], 321⟩, ⟨[(2, 3)], [], 223⟩, ⟨digit, [], 302⟩,
   ⟨xdigit, [], 324⟩],
  [⟨[ch '1'], [], 331⟩, ⟨[ch '2'], [], 334⟩, ⟨[(2, 3)], [], 223⟩, ⟨digit, [], 327⟩,
   ⟨xdigit, [], 337⟩],
  [⟨[ch '.'], [], 230⟩, ⟨[ch ':'], [], 306⟩, ⟨xdigit, [], 328⟩],
  [⟨[ch ':'], [], 306⟩, ⟨xdigit, [], 329⟩],
  [⟨[ch ':'], [], 306⟩, ⟨xdigit, [], 330⟩],
  -- 330
  [⟨[ch ':'], [], 306⟩],
  [⟨[ch '.'], [], 230⟩, ⟨[ch ':'], [], 306⟩, ⟨digit, [], 332⟩, ⟨xdigit, [], 328⟩],
  [⟨[ch '.'], [], 230⟩, ⟨[ch ':'], [], 306⟩, ⟨digit, [], 333⟩, ⟨xdigit, [], 329⟩],
  [⟨[ch '.'], [], 230⟩, ⟨[ch ':'], [], 306⟩, ⟨xdigit, [], 330⟩],
  [⟨[ch '.'], [], 230⟩, ⟨[ch '0'], [], 335⟩, ⟨[ch '5'], [], 336⟩, ⟨[ch ':'], [], 306⟩,
   ⟨xdigit, [], 328⟩],
  [⟨[ch ':'], [], 306⟩, ⟨digit, [], 333⟩, ⟨xdigit, [], 329⟩],
  [⟨[ch '0'], [], 333⟩, ⟨[ch ':'], [], 306⟩, ⟨xdigit, [], 329⟩],
  [⟨[ch ':'], [], 306⟩, ⟨xdigit, [], 328⟩],
  [⟨[(2, 3)], [], 223⟩, ⟨xdigit, [], 224⟩],
  [⟨[(2, 3)], [], 223⟩],
  -- 340
  [⟨[(3, 3)], [], 223⟩],
  [⟨[(4, 4)], [], 223⟩],
  [⟨[ch ':'], [], 343⟩],
  [⟨[ch '1'], [], 318⟩, ⟨[ch '2'], [], 321⟩, ⟨[ch ']'], [], 236⟩, ⟨digit, [], 302⟩,
   ⟨xdigit, [], 324⟩, ⟨[(2, 5)], [], 223⟩],
  [⟨xdigit, [], 345⟩],
  [⟨[ch '.'], [], 346⟩, ⟨xdigit, [], 345⟩],
  [⟨userinfo r, [], 347⟩],
  [⟨[ch ']'], [], 236⟩, ⟨userinfo r, [], 347⟩],
  [⟨[ch ':'], [.writeField], 15⟩, ⟨token, [], 14⟩],
  []]

end Tigerkin.Http
