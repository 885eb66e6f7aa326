import Bytewright.Model.Common.Status
import Std.Data.ExtTreeMap

/-! Rolling sequence accounting for each stream. -/

namespace Bytewright.Streamcodec

structure StreamStats where
  streamId : UInt16 := 0
  frames : UInt64 := 0
  gaps : UInt64 := 0
  duplicates : UInt64 := 0
  resets : UInt64 := 0
  deriving DecidableEq, Repr

structure Rolling where
  stats : StreamStats := {}
  lastSeq : UInt16 := 0
  seeded : Bool := false
  deriving DecidableEq, Repr

namespace Rolling

def observe (s : Rolling) (seq : UInt16) : Rolling :=
  let s := { s with stats.frames := s.stats.frames + 1 }
  if !s.seeded then { s with lastSeq := seq, seeded := true }
  else if seq = s.lastSeq then { s with stats.duplicates := s.stats.duplicates + 1 }
  else
    let s := if seq ≠ s.lastSeq + 1 then { s with stats.gaps := s.stats.gaps + 1 } else s
    { s with lastSeq := seq }

def noteReset (s : Rolling) : Rolling :=
  { s with stats.resets := s.stats.resets + 1, seeded := false, lastSeq := 0 }

end Rolling

/-- `std::map<std::uint16_t, Rolling>`. -/
abbrev StreamTable := Std.ExtTreeMap UInt16 Rolling

namespace StreamTable

/-- The entry of a stream, made if it is not there. -/
def slot (t : StreamTable) (streamId : UInt16) : Rolling :=
  let s := t.getD streamId {}
  { s with stats.streamId := streamId }

def observe (t : StreamTable) (streamId seq : UInt16) : StreamTable :=
  t.insert streamId ((slot t streamId).observe seq)

def noteReset (t : StreamTable) (streamId : UInt16) : StreamTable :=
  t.insert streamId (slot t streamId).noteReset

/-- The stats of every stream, in the order of the stream ids. -/
def snapshot (t : StreamTable) : List StreamStats := t.toList.map (·.2.stats)

end StreamTable

end Bytewright.Streamcodec
