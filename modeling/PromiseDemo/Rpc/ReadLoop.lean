import PromiseDemo.MsgPack.Unpacker

/-!
# The read loop

Both ends of a connection read alike: a handler takes a chunk from the socket, hands it to the
unpacker and takes messages off it until there is none complete; then it asks for the next chunk.
-/

namespace PromiseDemo.Rpc

open MsgPack

/-- Where a read handler stands: waiting for the socket, in the loop over `next`, or not to be
called again. -/
inductive ReadPhase
  | reading
  | parsing
  | ended
  deriving DecidableEq, Repr

/-- After these chunks the loop has taken these messages. -/
structure Intake (chunks : List Bytes) (taken : List Object) (u : Unpacker) (phase : ReadPhase) :
    Prop where
  holds : phase ≠ .ended → u.Holds chunks taken
  idle : phase = .reading → u.Idle
  front : taken <+: (Unpacker.readChunks chunks).1

namespace Intake

variable {chunks : List Bytes} {taken : List Object} {u v : Unpacker} {phase : ReadPhase}
  {o : Object}

theorem init : Intake [] [] .init .reading where
  holds _ := .init
  idle _ := Unpacker.idle_init
  front := List.nil_prefix

theorem ended (h : Intake chunks taken u phase) : Intake chunks taken v .ended where
  holds hne := absurd rfl hne
  idle he := by cases he
  front := h.front

theorem receive (h : Intake chunks taken u .reading) (c : Bytes) :
    Intake (chunks ++ [c]) taken (u.bufferConsumed c) .parsing where
  holds _ := (h.holds nofun).receive c
  idle he := by cases he
  front := ((h.holds nofun).receive c).front

theorem object (h : Intake chunks taken u .parsing) (hnext : u.next = .object o v) :
    Intake chunks (taken ++ [o]) v .parsing where
  holds _ := (h.holds nofun).object hnext
  idle he := by cases he
  front := ((h.holds nofun).object hnext).front

theorem incomplete (h : Intake chunks taken u .parsing) (hnext : u.next = .incomplete v) :
    Intake chunks taken v .reading where
  holds _ := (h.holds nofun).incomplete hnext
  idle _ := Unpacker.idle_of_incomplete hnext
  front := h.front

theorem fails (h : Intake chunks taken u .parsing) (hnext : u.next = .parseError) :
    Unpacker.readChunks chunks = (taken, none) := (h.holds nofun).fails hnext

theorem all (h : Intake chunks taken u .reading) :
    Unpacker.readChunks chunks = (taken, some u) := (h.holds nofun).all (h.idle rfl)

end Intake

end PromiseDemo.Rpc
