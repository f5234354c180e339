import ChatServer.Hearsay
import ChatServer.Keyboard
import ChatServer.PeerReads
import ChatServer.UserList

/-!
# From keyboard to peer

Both clients and the server between them. What one client reads in `BROADCAST`
lines off its connection are texts that were typed at the others, under the
names that those have proved.
-/

namespace ChatServer

open CStr Interleave Prog

/-! ## The sender's end -/

/-- The line that the handler has read. -/
def readOf (i : Nat) (l : Label Tid Act.Ret) : Option Bytes :=
  match l with
  | ⟨tid, .recvLine _, (line : Option Bytes)⟩ => if tid = .handler i then line else none
  | _ => none

def linesRead (i : Nat) (tr : List (Label Tid Act.Ret)) : List Bytes := tr.filterMap (readOf i)

/-- The text that the line asks to send, if it is a `MSG` line. -/
def textOf (line : Bytes) : Option Bytes :=
  match Errand.heard (some line) with
  | .asked content => some content
  | _ => none

/-- The text that the request brings to the room; a text too long for its field is refused. -/
def ClientLine.brings (c : ClientLine) : Option Bytes :=
  match c.heard with
  | some (.msg, _, text) => some text
  | _ => none

/-- The session's client is the one at which `stdin` is typed: behind its `AUTH` line it sends what `client_run`
does, and the handler has read the first lines of it, however they came in. -/
structure Keyed (i : Nat) (tr : List (Label Tid Act.Ret)) (stdin : Bytes) where
  username : Bytes
  password : Bytes
  env : Nat → Moment
  arrivals : List Arrival
  buf : Bytes
  fuel : Nat
  credentials : (ClientLine.auth username password).Sendable
  rooms : ∀ s ∈ typed stdin, ¬ LongJoin (inputAt s)
  unreset : .reset ∉ arrivals
  sent : stream arrivals = ((ClientLine.auth username password).build maxLineLen).2 ++ ((clientSends env stdin).map Prod.snd).flatten
  buf_length : buf.length = maxLineLen
  enough : (clientSends env stdin).length + 1 < fuel
  read : linesRead i tr <+: recvLines serverRecvLine fuel (recvs arrivals) buf

theorem asked_eq (i : Nat) (tr : List (Label Tid Act.Ret)) : asked i tr = (linesRead i tr).filterMap textOf := by
  rw [asked, linesRead, List.filterMap_filterMap]
  refine List.filterMap_congr fun l _ => ?_
  obtain ⟨tid, a, r⟩ := l
  cases a with
  | recvLine fd =>
    change Option Bytes at r
    show (if tid = .handler i then _ else none) = (if tid = .handler i then r else none).bind textOf
    by_cases htid : tid = .handler i
    · rw [if_pos htid, if_pos htid]
      cases r <;> rfl
    · rw [if_neg htid, if_neg htid]
      rfl
  | _ => rfl

theorem textOf_text {c : ClientLine} (hc : c.Sendable) : textOf c.text = c.brings := by
  let p := protocolParseClientLine c.text
  have herrand : Errand.heard (some c.text) = if p.1 = .ok ∧ p.2.cmd = .msg then .asked (cstr p.2.arg2) else .none := rfl
  have hheard : c.heard = if p.1 = .ok then some (p.2.cmd, cstr p.2.arg1, cstr p.2.arg2) else none := (parse_heard hc).symm
  rw [textOf, herrand, ClientLine.brings, hheard]
  by_cases hok : p.1 = .ok
  · rw [if_pos hok]
    by_cases hmsg : p.2.cmd = .msg
    · rw [if_pos ⟨hok, hmsg⟩, hmsg]
    · rw [if_neg fun h => hmsg h.2]
      generalize p.2.cmd = cmd at hmsg
      cases cmd with
      | msg => exact absurd rfl hmsg
      | _ => rfl
  · rw [if_neg hok, if_neg fun h => hok h.1]

/-- The texts that the handler takes up are those that were typed, the first of them. -/
theorem Keyed.asked {i : Nat} {tr : List (Label Tid Act.Ret)} {stdin : Bytes} (h : Keyed i tr stdin) :
    ChatServer.asked i tr <+: (requested (typed stdin)).filterMap ClientLine.brings := by
  obtain ⟨cmds, hcmds, hsendable, hsends⟩ := clientSends_requested h.rooms h.env
  have hall : ∀ c ∈ ClientLine.auth h.username h.password :: cmds, c.Sendable := List.forall_mem_cons.mpr ⟨h.credentials, hsendable⟩
  have hlen : cmds.length = (clientSends h.env stdin).length := by
    rw [← List.length_map (fun c : ClientLine => (c.build maxLineLen).2), ← hsends, List.length_map]
  have hstream : stream h.arrivals =
      ((ClientLine.auth h.username h.password :: cmds).map fun c => (c.build maxLineLen).2).flatten := by
    rw [h.sent, hsends]
    rfl
  have hread := h.read
  rw [recvLines_requested hall h.unreset hstream h.buf_length (by rw [List.length_cons, hlen]; exact h.enough)] at hread
  have htexts := hread.filterMap textOf
  rw [← asked_eq, List.filterMap_map] at htexts
  have hbrings : (ClientLine.auth h.username h.password :: cmds).filterMap (textOf ∘ ClientLine.text) = cmds.filterMap ClientLine.brings :=
    (List.filterMap_congr fun c hc => textOf_text (hall c hc)).trans rfl
  rw [hbrings] at htexts
  exact htexts.trans (hcmds.filterMap _)

/-! ## The receiver's end -/

end ChatServer
