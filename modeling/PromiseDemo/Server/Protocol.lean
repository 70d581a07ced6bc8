import PromiseDemo.Framework.Transition
import PromiseDemo.Net.Socket

/-!
# What the two servers have in common

Both echo every request and send `"END"` after it, under the id of the request.
-/

namespace PromiseDemo

/-- What a step of a server shows of one connection. -/
inductive ServerEvent
  | received (chunk : Bytes)
  | decoded (request : Frame)
  /-- An `async_write` was started on this buffer. -/
  | started (data : Bytes)
  | sent (bytes : Bytes)
  | writeFailed
  | disconnected
  deriving DecidableEq, Repr

namespace ServerEvent

@[simp] def reads : ServerEvent → Bytes
  | .received chunk => chunk
  | _ => []

@[simp] def writes : ServerEvent → Bytes
  | .sent bytes => bytes
  | _ => []

@[simp] def decodes : ServerEvent → List Frame
  | .decoded request => [request]
  | _ => []

end ServerEvent

/-- The bytes taken off the socket. -/
def receivedBytes (h : List ServerEvent) : Bytes := h.flatMap ServerEvent.reads

/-- The bytes put on the socket. -/
def sentBytes (h : List ServerEvent) : Bytes := h.flatMap ServerEvent.writes

/-- The requests decoded, in order. -/
def requestsOf (h : List ServerEvent) : List Frame := h.flatMap ServerEvent.decodes

@[simp] theorem receivedBytes_nil : receivedBytes [] = [] := rfl

@[simp] theorem sentBytes_nil : sentBytes [] = [] := rfl

@[simp] theorem requestsOf_nil : requestsOf [] = [] := rfl

@[simp] theorem receivedBytes_cons (e : ServerEvent) (h : List ServerEvent) :
    receivedBytes (e :: h) = e.reads ++ receivedBytes h := rfl

@[simp] theorem sentBytes_cons (e : ServerEvent) (h : List ServerEvent) :
    sentBytes (e :: h) = e.writes ++ sentBytes h := rfl

@[simp] theorem requestsOf_cons (e : ServerEvent) (h : List ServerEvent) :
    requestsOf (e :: h) = e.decodes ++ requestsOf h := rfl

@[simp] theorem receivedBytes_append (h k : List ServerEvent) :
    receivedBytes (h ++ k) = receivedBytes h ++ receivedBytes k := List.flatMap_append

@[simp] theorem sentBytes_append (h k : List ServerEvent) :
    sentBytes (h ++ k) = sentBytes h ++ sentBytes k := List.flatMap_append

@[simp] theorem requestsOf_append (h k : List ServerEvent) :
    requestsOf (h ++ k) = requestsOf h ++ requestsOf k := List.flatMap_append

/-- `encode_frame(id, request) + encode_frame(id, "END")` -/
def reply (request : Frame) : Bytes :=
  encodeFrame request.id request.payload ++ encodeFrame request.id endPayload

/-- The bytes that answer a list of requests. -/
def replies (requests : List Frame) : Bytes := requests.flatMap reply

@[simp] theorem replies_nil : replies [] = [] := rfl

@[simp] theorem replies_append (as bs : List Frame) :
    replies (as ++ bs) = replies as ++ replies bs := List.flatMap_append

@[simp] theorem replies_singleton (request : Frame) : replies [request] = reply request := by
  simp [replies]

/-- The frames that answer a list of requests. -/
def replyFrames (requests : List Frame) : List Frame :=
  requests.flatMap fun request => [request, ⟨request.id, endPayload⟩]

@[simp] theorem replyFrames_append (as bs : List Frame) :
    replyFrames (as ++ bs) = replyFrames as ++ replyFrames bs := List.flatMap_append

theorem encodeAll_replyFrames (requests : List Frame) :
    frameCode.encodeAll (replyFrames requests) = replies requests := by
  induction requests with
  | nil => rfl
  | cons request requests ih =>
    have hcons : replyFrames (request :: requests) =
        [request, ⟨request.id, endPayload⟩] ++ replyFrames requests := rfl
    rw [hcons, PrefixCode.Code.encodeAll_append, ih]
    simp [replies, reply]

/-! ## A vector of connections -/

theorem map_set_same {α β : Type*} {f : α → β} {l : List α} {i : ℕ} {x y : α}
    (hi : l[i]? = some x) (hf : f y = f x) : (l.set i y).map f = l.map f := by
  have hself : (l.map f)[i]? = some (f y) := by
    rw [List.getElem?_map, hi, Option.map_some, hf]
  rw [List.map_set]
  obtain ⟨hlt, hget⟩ := List.getElem?_eq_some_iff.mp hself
  exact (congrArg ((l.map f).set i) hget.symm).trans (List.set_getElem_self hlt)

theorem map_ne_of_nodup {α β : Type*} {f : α → β} {l : List α} {i j : ℕ} {x y : α}
    (hn : (l.map f).Nodup) (hi : l[i]? = some x) (hj : l[j]? = some y) (hne : j ≠ i) :
    f x ≠ f y := by
  intro heq
  have hget : (l.map f)[i]? = (l.map f)[j]? := by
    rw [List.getElem?_map, List.getElem?_map, hi, hj, Option.map_some, Option.map_some, heq]
  have hlt : i < (l.map f).length := by
    rw [List.length_map]
    exact (List.getElem?_eq_some_iff.mp hi).1
  exact hne ((List.getElem?_inj hlt hn).mp hget).symm

end PromiseDemo
