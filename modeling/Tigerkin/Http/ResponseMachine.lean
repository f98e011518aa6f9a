import Tigerkin.Http.RequestMachine

/-! # The machine of the response parser

The states and edges of `http_response_parser.cpp`, which Ragel has generated from
`http_response_parser.rl`, as those of the request parser. The final states are 120 to 123. -/

namespace Tigerkin.Http

open Machine

inductive ResponseAction where
  | mark | startField | writeField | writeContentLen | writeConnectionClose | writeValue
  | reasonPhrase | statusCode | httpVersion | chunkSize | transChunked | done
  deriving DecidableEq

def fieldChar : ByteClass :=
  [ch '!', span '#' '\'', ch '*', ch '+', ch '-', ch '.', span '0' '9', span 'A' 'Z', span '^' 'z',
    ch '|', ch '~']

def space : ByteClass := [(9, 13), ch ' ']

def responseRows : List (List (Edge ResponseAction)) := [
  [],
  [⟨[ch 'H'], [.mark], 8⟩, ⟨xdigit, [.mark], 2⟩],
  [⟨[ch '\n'], [.chunkSize, .done], 120⟩, ⟨[ch '\r'], [.chunkSize], 3⟩,
   ⟨[ch ';'], [.chunkSize], 4⟩, ⟨xdigit, [], 2⟩],
  [⟨[ch '\n'], [.done], 120⟩],
  [⟨fieldChar, [.startField], 5⟩],
  [⟨[ch '\n'], [.writeField, .mark, .writeValue, .done], 120⟩,
   ⟨[ch '\r'], [.writeField, .mark, .writeValue], 3⟩,
   ⟨[ch ';'], [.writeField, .mark, .writeValue], 4⟩, ⟨[ch '='], [.writeField, .mark], 6⟩,
   ⟨fieldChar, [], 5⟩],
  [⟨fieldChar, [.mark], 7⟩],
  [⟨[ch '\n'], [.writeValue, .done], 120⟩, ⟨[ch '\r'], [.writeValue], 3⟩,
   ⟨[ch ';'], [.writeValue], 4⟩, ⟨fieldChar, [], 7⟩],
  [⟨[ch 'T'], [], 9⟩],
  [⟨[ch 'T'], [], 10⟩],
  -- 10
  [⟨[ch 'P'], [], 11⟩],
  [⟨[ch '/'], [], 12⟩],
  [⟨digit, [], 13⟩],
  [⟨[ch '.'], [], 14⟩, ⟨digit, [], 13⟩],
  [⟨digit, [], 15⟩],
  [⟨[ch ' '], [.httpVersion], 16⟩, ⟨digit, [], 15⟩],
  [⟨digit, [.mark], 17⟩],
  [⟨[ch ' '], [.statusCode], 18⟩, ⟨digit, [], 17⟩],
  [⟨[(0, 9), (11, 255)], [.mark], 19⟩],
  [⟨[ch '\n'], [.reasonPhrase], 20⟩, ⟨[ch '\r'], [.reasonPhrase], 24⟩, ⟨anyByte, [], 19⟩],
  -- 20
  [⟨[ch '\n'], [.done], 120⟩, ⟨[ch '\r'], [], 3⟩, ⟨[ch 'C', ch 'c'], [.startField], 25⟩,
   ⟨[ch 'T', ch 't'], [.startField], 44⟩, ⟨fieldChar, [.startField], 21⟩],
  [⟨[ch ':'], [.writeField], 22⟩, ⟨fieldChar, [], 21⟩],
  [⟨[ch '\n'], [.mark, .writeValue], 20⟩, ⟨[ch '\r'], [.mark, .writeValue], 24⟩,
   ⟨space, [.mark], 22⟩, ⟨anyByte, [.mark], 23⟩],
  [⟨[ch '\n'], [.writeValue], 20⟩, ⟨[ch '\r'], [.writeValue], 24⟩, ⟨anyByte, [], 23⟩],
  [⟨[ch '\n'], [], 20⟩],
  [⟨[ch ':'], [.writeField], 22⟩, ⟨[ch 'O', ch 'o'], [], 26⟩, ⟨fieldChar, [], 21⟩],
  [⟨[ch ':'], [.writeField], 22⟩, ⟨[ch 'N', ch 'n'], [], 27⟩, ⟨fieldChar, [], 21⟩],
  [⟨[ch ':'], [.writeField], 22⟩, ⟨[ch 'N', ch 'n'], [], 28⟩, ⟨[ch 'T', ch 't'], [], 101⟩,
   ⟨fieldChar, [], 21⟩],
  [⟨[ch ':'], [.writeField], 22⟩, ⟨[ch 'E', ch 'e'], [], 29⟩, ⟨fieldChar, [], 21⟩],
  [⟨[ch ':'], [.writeField], 22⟩, ⟨[ch 'C', ch 'c'], [], 30⟩, ⟨fieldChar, [], 21⟩],
  -- 30
  [⟨[ch ':'], [.writeField], 22⟩, ⟨[ch 'T', ch 't'], [], 31⟩, ⟨fieldChar, [], 21⟩],
  [⟨[ch ':'], [.writeField], 22⟩, ⟨[ch 'I', ch 'i'], [], 32⟩, ⟨fieldChar, [], 21⟩],
  [⟨[ch ':'], [.writeField], 22⟩, ⟨[ch 'O', ch 'o'], [], 33⟩, ⟨fieldChar, [], 21⟩],
  [⟨[ch ':'], [.writeField], 22⟩, ⟨[ch 'N', ch 'n'], [], 34⟩, ⟨fieldChar, [], 21⟩],
  [⟨[ch ':'], [.writeField], 35⟩, ⟨fieldChar, [], 21⟩],
  [⟨[ch '\n'], [.mark, .writeValue], 36⟩, ⟨[ch '\r'], [.mark, .writeValue], 95⟩,
   ⟨[ch 'C', ch 'c'], [.mark], 96⟩, ⟨space, [.mark], 35⟩, ⟨anyByte, [.mark], 23⟩],
  [⟨[ch '\n'], [.done], 122⟩, ⟨[ch '\r'], [], 89⟩, ⟨[ch 'C', ch 'c'], [.startField], 90⟩,
   ⟨[ch 'T', ch 't'], [.startField], 44⟩, ⟨space, [], 37⟩, ⟨fieldChar, [.startField], 21⟩],
  [⟨[ch 'C', ch 'c'], [], 38⟩, ⟨space, [], 37⟩],
  [⟨[ch 'L', ch 'l'], [], 39⟩],
  [⟨[ch 'O', ch 'o'], [], 40⟩],
  -- 40
  [⟨[ch 'S', ch 's'], [], 41⟩],
  [⟨[ch 'E', ch 'e'], [], 42⟩],
  [⟨[ch '\n'], [], 43⟩, ⟨[ch '\r'], [], 88⟩],
  [⟨[ch '\n'], [.writeConnectionClose, .done], 120⟩, ⟨[ch '\r'], [.writeConnectionClose], 3⟩,
   ⟨[ch 'C', ch 'c'], [.writeConnectionClose, .startField], 25⟩,
   ⟨[ch 'T', ch 't'], [.writeConnectionClose, .startField], 44⟩,
   ⟨fieldChar, [.writeConnectionClose, .startField], 21⟩],
  [⟨[ch ':'], [.writeField], 22⟩, ⟨[ch 'R', ch 'r'], [], 45⟩, ⟨fieldChar, [], 21⟩],
  [⟨[ch ':'], [.writeField], 22⟩, ⟨[ch 'A', ch 'a'], [], 46⟩, ⟨fieldChar, [], 21⟩],
  [⟨[ch ':'], [.writeField], 22⟩, ⟨[ch 'N', ch 'n'], [], 47⟩, ⟨fieldChar, [], 21⟩],
  [⟨[ch ':'], [.writeField], 22⟩, ⟨[ch 'S', ch 's'], [], 48⟩, ⟨fieldChar, [], 21⟩],
  [⟨[ch ':'], [.writeField], 22⟩, ⟨[ch 'F', ch 'f'], [], 49⟩, ⟨fieldChar, [], 21⟩],
  [⟨[ch ':'], [.writeField], 22⟩, ⟨[ch 'E', ch 'e'], [], 50⟩, ⟨fieldChar, [], 21⟩],
  -- 50
  [⟨[ch ':'], [.writeField], 22⟩, ⟨[ch 'R', ch 'r'], [], 51⟩, ⟨fieldChar, [], 21⟩],
  [⟨[ch '-'], [], 52⟩, ⟨[ch ':'], [.writeField], 22⟩, ⟨fieldChar, [], 21⟩],
  [⟨[ch ':'], [.writeField], 22⟩, ⟨[ch 'E', ch 'e'], [], 53⟩, ⟨fieldChar, [], 21⟩],
  [⟨[ch ':'], [.writeField], 22⟩, ⟨[ch 'N', ch 'n'], [], 54⟩, ⟨fieldChar, [], 21⟩],
  [⟨[ch ':'], [.writeField], 22⟩, ⟨[ch 'C', ch 'c'], [], 55⟩, ⟨fieldChar, [], 21⟩],
  [⟨[ch ':'], [.writeField], 22⟩, ⟨[ch 'O', ch 'o'], [], 56⟩, ⟨fieldChar, [], 21⟩],
  [⟨[ch ':'], [.writeField], 22⟩, ⟨[ch 'D', ch 'd'], [], 57⟩, ⟨fieldChar, [], 21⟩],
  [⟨[ch ':'], [.writeField], 22⟩, ⟨[ch 'I', ch 'i'], [], 58⟩, ⟨fieldChar, [], 21⟩],
  [⟨[ch ':'], [.writeField], 22⟩, ⟨[ch 'N', ch 'n'], [], 59⟩, ⟨fieldChar, [], 21⟩],
  [⟨[ch ':'], [.writeField], 22⟩, ⟨[ch 'G', ch 'g'], [], 60⟩, ⟨fieldChar, [], 21⟩],
  -- 60
  [⟨[ch ':'], [.writeField], 61⟩, ⟨fieldChar, [], 21⟩],
  [⟨[ch '\n'], [.mark, .writeValue], 62⟩, ⟨[ch '\r'], [.mark, .writeValue], 80⟩,
   ⟨[ch 'C', ch 'c'], [.mark], 81⟩, ⟨space, [.mark], 61⟩, ⟨anyByte, [.mark], 23⟩],
  [⟨[ch '\n'], [.done], 121⟩, ⟨[ch '\r'], [], 72⟩, ⟨[ch 'C', ch 'c'], [.mark, .startField], 73⟩,
   ⟨[ch 'T', ch 't'], [.startField], 44⟩, ⟨space, [], 63⟩, ⟨fieldChar, [.startField], 21⟩],
  [⟨[ch 'C', ch 'c'], [.mark], 64⟩, ⟨space, [], 63⟩],
  [⟨[ch 'H', ch 'h'], [], 65⟩],
  [⟨[ch 'U', ch 'u'], [], 66⟩],
  [⟨[ch 'N', ch 'n'], [], 67⟩],
  [⟨[ch 'K', ch 'k'], [], 68⟩],
  [⟨[ch 'E', ch 'e'], [], 69⟩],
  [⟨[ch 'D', ch 'd'], [], 70⟩],
  -- 70
  [⟨[ch '\n'], [.writeValue, .transChunked], 20⟩, ⟨[ch '\r'], [.writeValue], 71⟩],
  [⟨[ch '\n'], [.transChunked], 20⟩],
  [⟨[ch '\n'], [.done], 121⟩, ⟨[ch 'C', ch 'c'], [.mark], 64⟩, ⟨space, [], 63⟩],
  [⟨[ch ':'], [.writeField], 22⟩, ⟨[ch 'H', ch 'h'], [], 74⟩, ⟨[ch 'O', ch 'o'], [], 26⟩,
   ⟨fieldChar, [], 21⟩],
  [⟨[ch ':'], [.writeField], 22⟩, ⟨[ch 'U', ch 'u'], [], 75⟩, ⟨fieldChar, [], 21⟩],
  [⟨[ch ':'], [.writeField], 22⟩, ⟨[ch 'N', ch 'n'], [], 76⟩, ⟨fieldChar, [], 21⟩],
  [⟨[ch ':'], [.writeField], 22⟩, ⟨[ch 'K', ch 'k'], [], 77⟩, ⟨fieldChar, [], 21⟩],
  [⟨[ch ':'], [.writeField], 22⟩, ⟨[ch 'E', ch 'e'], [], 78⟩, ⟨fieldChar, [], 21⟩],
  [⟨[ch ':'], [.writeField], 22⟩, ⟨[ch 'D', ch 'd'], [], 79⟩, ⟨fieldChar, [], 21⟩],
  [⟨[ch '\n'], [.writeValue, .transChunked], 20⟩, ⟨[ch '\r'], [.writeValue], 71⟩,
   ⟨[ch ':'], [.writeField], 22⟩, ⟨fieldChar, [], 21⟩],
  -- 80
  [⟨[ch '\n'], [], 62⟩, ⟨[ch 'C', ch 'c'], [.mark], 64⟩, ⟨space, [], 63⟩],
  [⟨[ch '\n'], [.writeValue], 20⟩, ⟨[ch '\r'], [.writeValue], 24⟩, ⟨[ch 'H', ch 'h'], [], 82⟩,
   ⟨anyByte, [], 23⟩],
  [⟨[ch '\n'], [.writeValue], 20⟩, ⟨[ch '\r'], [.writeValue], 24⟩, ⟨[ch 'U', ch 'u'], [], 83⟩,
   ⟨anyByte, [], 23⟩],
  [⟨[ch '\n'], [.writeValue], 20⟩, ⟨[ch '\r'], [.writeValue], 24⟩, ⟨[ch 'N', ch 'n'], [], 84⟩,
   ⟨anyByte, [], 23⟩],
  [⟨[ch '\n'], [.writeValue], 20⟩, ⟨[ch '\r'], [.writeValue], 24⟩, ⟨[ch 'K', ch 'k'], [], 85⟩,
   ⟨anyByte, [], 23⟩],
  [⟨[ch '\n'], [.writeValue], 20⟩, ⟨[ch '\r'], [.writeValue], 24⟩, ⟨[ch 'E', ch 'e'], [], 86⟩,
   ⟨anyByte, [], 23⟩],
  [⟨[ch '\n'], [.writeValue], 20⟩, ⟨[ch '\r'], [.writeValue], 24⟩, ⟨[ch 'D', ch 'd'], [], 87⟩,
   ⟨anyByte, [], 23⟩],
  [⟨[ch '\n'], [.writeValue, .transChunked], 20⟩, ⟨[ch '\r'], [.writeValue], 71⟩,
   ⟨anyByte, [], 23⟩],
  [⟨[ch '\n'], [], 43⟩],
  [⟨[ch '\n'], [.done], 122⟩, ⟨[ch 'C', ch 'c'], [], 38⟩, ⟨space, [], 37⟩],
  -- 90
  [⟨[ch ':'], [.writeField], 22⟩, ⟨[ch 'L', ch 'l'], [], 91⟩, ⟨[ch 'O', ch 'o'], [], 26⟩,
   ⟨fieldChar, [], 21⟩],
  [⟨[ch ':'], [.writeField], 22⟩, ⟨[ch 'O', ch 'o'], [], 92⟩, ⟨fieldChar, [], 21⟩],
  [⟨[ch ':'], [.writeField], 22⟩, ⟨[ch 'S', ch 's'], [], 93⟩, ⟨fieldChar, [], 21⟩],
  [⟨[ch ':'], [.writeField], 22⟩, ⟨[ch 'E', ch 'e'], [], 94⟩, ⟨fieldChar, [], 21⟩],
  [⟨[ch '\n'], [], 43⟩, ⟨[ch '\r'], [], 88⟩, ⟨[ch ':'], [.writeField], 22⟩, ⟨fieldChar, [], 21⟩],
  [⟨[ch '\n'], [], 36⟩, ⟨[ch 'C', ch 'c'], [], 38⟩, ⟨space, [], 37⟩],
  [⟨[ch '\n'], [.writeValue], 20⟩, ⟨[ch '\r'], [.writeValue], 24⟩, ⟨[ch 'L', ch 'l'], [], 97⟩,
   ⟨anyByte, [], 23⟩],
  [⟨[ch '\n'], [.writeValue], 20⟩, ⟨[ch '\r'], [.writeValue], 24⟩, ⟨[ch 'O', ch 'o'], [], 98⟩,
   ⟨anyByte, [], 23⟩],
  [⟨[ch '\n'], [.writeValue], 20⟩, ⟨[ch '\r'], [.writeValue], 24⟩, ⟨[ch 'S', ch 's'], [], 99⟩,
   ⟨anyByte, [], 23⟩],
  [⟨[ch '\n'], [.writeValue], 20⟩, ⟨[ch '\r'], [.writeValue], 24⟩, ⟨[ch 'E', ch 'e'], [], 100⟩,
   ⟨anyByte, [], 23⟩],
  -- 100
  [⟨[ch '\n'], [.writeValue], 43⟩, ⟨[ch '\r'], [.writeValue], 88⟩, ⟨anyByte, [], 23⟩],
  [⟨[ch ':'], [.writeField], 22⟩, ⟨[ch 'E', ch 'e'], [], 102⟩, ⟨fieldChar, [], 21⟩],
  [⟨[ch ':'], [.writeField], 22⟩, ⟨[ch 'N', ch 'n'], [], 103⟩, ⟨fieldChar, [], 21⟩],
  [⟨[ch ':'], [.writeField], 22⟩, ⟨[ch 'T', ch 't'], [], 104⟩, ⟨fieldChar, [], 21⟩],
  [⟨[ch '-'], [], 105⟩, ⟨[ch ':'], [.writeField], 22⟩, ⟨fieldChar, [], 21⟩],
  [⟨[ch ':'], [.writeField], 22⟩, ⟨[ch 'L', ch 'l'], [], 106⟩, ⟨fieldChar, [], 21⟩],
  [⟨[ch ':'], [.writeField], 22⟩, ⟨[ch 'E', ch 'e'], [], 107⟩, ⟨fieldChar, [], 21⟩],
  [⟨[ch ':'], [.writeField], 22⟩, ⟨[ch 'N', ch 'n'], [], 108⟩, ⟨fieldChar, [], 21⟩],
  [⟨[ch ':'], [.writeField], 22⟩, ⟨[ch 'G', ch 'g'], [], 109⟩, ⟨fieldChar, [], 21⟩],
  [⟨[ch ':'], [.writeField], 22⟩, ⟨[ch 'T', ch 't'], [], 110⟩, ⟨fieldChar, [], 21⟩],
  -- 110
  [⟨[ch ':'], [.writeField], 22⟩, ⟨[ch 'H', ch 'h'], [], 111⟩, ⟨fieldChar, [], 21⟩],
  [⟨[ch ':'], [.writeField], 112⟩, ⟨fieldChar, [], 21⟩],
  [⟨[ch '\n'], [.mark, .writeValue], 113⟩, ⟨[ch '\r'], [.mark, .writeValue], 118⟩,
   ⟨space, [.mark], 112⟩, ⟨digit, [.mark], 119⟩, ⟨anyByte, [.mark], 23⟩],
  [⟨[ch '\n'], [.done], 123⟩, ⟨[ch '\r'], [], 116⟩, ⟨[ch 'C', ch 'c'], [.startField], 25⟩,
   ⟨[ch 'T', ch 't'], [.startField], 44⟩, ⟨space, [], 114⟩, ⟨digit, [.mark, .startField], 117⟩,
   ⟨fieldChar, [.startField], 21⟩],
  [⟨space, [], 114⟩, ⟨digit, [.mark], 115⟩],
  [⟨[ch '\n'], [.writeContentLen, .writeValue], 20⟩,
   ⟨[ch '\r'], [.writeContentLen, .writeValue], 24⟩, ⟨digit, [], 115⟩],
  [⟨[ch '\n'], [.done], 123⟩, ⟨space, [], 114⟩, ⟨digit, [.mark], 115⟩],
  [⟨[ch '\n'], [.writeContentLen, .writeValue], 20⟩,
   ⟨[ch '\r'], [.writeContentLen, .writeValue], 24⟩, ⟨[ch ':'], [.writeField], 22⟩,
   ⟨digit, [], 117⟩, ⟨fieldChar, [], 21⟩],
  [⟨[ch '\n'], [], 113⟩, ⟨space, [], 114⟩, ⟨digit, [.mark], 115⟩],
  [⟨[ch '\n'], [.writeContentLen, .writeValue], 20⟩,
   ⟨[ch '\r'], [.writeContentLen, .writeValue], 24⟩, ⟨digit, [], 119⟩, ⟨anyByte, [], 23⟩],
  -- 120
  [],
  [⟨[ch 'C', ch 'c'], [.mark], 64⟩, ⟨space, [], 63⟩],
  [⟨[ch 'C', ch 'c'], [], 38⟩, ⟨space, [], 37⟩],
  [⟨space, [], 114⟩, ⟨digit, [.mark], 115⟩]]

end Tigerkin.Http
