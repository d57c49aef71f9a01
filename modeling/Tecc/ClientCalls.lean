import Tecc.TcpClient
import Tecc.SocketRead
import Tecc.Lib.Guarded

/-! The calls of the client from any number of threads, each under the guard, and what the server
reads of them. The client has been started and is not shut down yet. -/
namespace Tecc.TcpClient

open Machine Block Buffer Object Socket Transition Guarded

/-- The calls with their arguments; `none` is the null pointer. -/
inductive Call where
  | send (data : TecBuffer)
  | send_str (str : Option (List UInt8))
  | recv (data : TecBuffer)
  | send_recv (data_in data_out : TecBuffer)
  | send_recv_str (str : Option (List UInt8)) (data_out : TecBuffer)

/-- The connection. `sent` holds the bytes that the system has taken from the client. -/
structure Link where
  self : TecTCPClient
  sent : List UInt8
  peer : Peer

/-- The buffer on the stack of `TecSocket_write_str`. -/
def str_buf (s : List UInt8) : TecBuffer :=
  { data := some (s ++ [0]), pos := 0, size := toSize (toInt (s.length + 1))
    capacity := toSize (toInt (s.length + 1)), block_size := 0 }

/-- What is written. -/
def Call.src : Call → Option TecBuffer
  | .send data | .send_recv data _ => some data
  | .send_str str | .send_recv_str str _ => str.map str_buf
  | .recv _ => none

/-- Where the reply goes. -/
def Call.dst : Call → Option TecBuffer
  | .send _ | .send_str _ => none
  | .recv data | .send_recv _ data | .send_recv_str _ data => some data

def send_ (answer : WriteAnswer) (data : TecBuffer) : Int := TecSocket_write answer data

def send_str_ (answer : WriteAnswer) (str : Option (List UInt8)) : Int :=
  TecSocket_write_str answer str

/-- What `write` may return, and what it leaves in `errno`. -/
def Documented (answer : WriteAnswer) : Prop :=
  answer.sent < 9223372036854775808 ∧ (answer.sent < 0 → answer.errno ≠ 0)

/-- The bytes that the system takes; `write` is not called for an empty buffer. -/
def taken (answer : WriteAnswer) (src : TecBuffer) : List UInt8 :=
  if src.size = 0 then [] else src.contents.take answer.sent.toNat

def Call.taken (answer : WriteAnswer) (call : Call) : List UInt8 :=
  call.src.elim [] (TcpClient.taken answer)

/-- The error of the write. -/
def Call.write_error (answer : WriteAnswer) : Call → Int
  | .send data | .send_recv data _ => TecSocket_write answer data
  | .send_str str | .send_recv_str str _ => TecSocket_write_str answer str
  | .recv _ => 0

/-- Where a thread stands, with its local variables. -/
inductive Pc where
  | idle
  /-- At `TecMutex_lock`. -/
  | lock (call : Call)
  | write (call : Call)
  /-- At the `read` of the loop in `TecSocket_read`. -/
  | read (dst : TecBuffer)
  | unlock (dst : Option TecBuffer) (error : Int)
  | returned (dst : Option TecBuffer) (error : Int)

/-- Behind the lock. -/
def Call.first : Call → Pc
  | .recv data => .read data
  | call => .write call

/-- Behind the write: `if (!error)` -/
def Call.behind (call : Call) (error : Int) : Pc :=
  match call.dst with
  | none => .unlock none error
  | some dst => if error = 0 then .read dst else .unlock (some dst) error

def Pc.Inside : Pc → Prop
  | .write _ | .read _ | .unlock _ _ => True
  | .idle | .lock _ | .returned _ _ => False

inductive Enter : Pc → Pc → Prop
  | lock {call : Call} : Enter (.lock call) call.first

/-- A round of the loop of `TecSocket_read` is one step. -/
inductive Inner (calloc : Bool) : Pc → Link → Pc → Link → Prop
  | write {call : Call} {link : Link} {answer : WriteAnswer} (hanswer : Documented answer) :
      Inner calloc (.write call) link (call.behind (call.write_error answer))
        { link with sent := link.sent ++ call.taken answer }
  | read {dst dst' : TecBuffer} {link : Link} {bytes : List UInt8} {data : Option (List UInt8)}
      {n : Nat}
      (hread : read link.self.sock.fd link.peer link.self.sock.buf.capacity = some bytes)
      (hne : bytes ≠ [])
      (hdata : memcpy_to link.self.sock.buf.data 0 bytes bytes.length = .ok data)
      (hwrite : TecBuffer_write calloc dst (data.getD []) bytes.length = .ok (dst', n)) :
      Inner calloc (.read dst) link (.read dst')
        { link with
          self := { link.self with
            sock := { link.self.sock with buf := { link.self.sock.buf with data := data } } }
          peer := link.peer.skip link.self.sock.buf.capacity }
  | closed {dst : TecBuffer} {link : Link}
      (hread : read link.self.sock.fd link.peer link.self.sock.buf.capacity = some []) :
      Inner calloc (.read dst) link (.unlock (some dst) 0) link
  | failed {dst : TecBuffer} {link : Link}
      (hread : read link.self.sock.fd link.peer link.self.sock.buf.capacity = none) :
      Inner calloc (.read dst) link
        (.unlock (some dst) (read_errno link.self.sock.fd link.peer)) link

inductive Leave : Pc → Pc → Prop
  | unlock {dst : Option TecBuffer} {error : Int} :
      Leave (.unlock dst error) (.returned dst error)

inductive Outer : Pc → Pc → Prop
  | call {call : Call} : Outer .idle (.lock call)
  | again {dst : Option TecBuffer} {error : Int} : Outer (.returned dst error) .idle

variable {T : Type*} [DecidableEq T] {calloc : Bool} {answer : WriteAnswer} {call : Call}
  {link link' : Link} {l l' after : Pc} {dst : TecBuffer}

theorem first_inside (call : Call) : call.first.Inside := by
  cases call <;> trivial

theorem behind_inside (call : Call) (error : Int) : (call.behind error).Inside := by
  unfold Call.behind
  split
  · trivial
  · split <;> trivial

/-- The threads of the client under its guard. -/
def client_program (calloc : Bool) : Program Pc Link where
  Inside := Pc.Inside
  Enter := Enter
  Inner := Inner calloc
  Leave := Leave
  Outer := Outer
  enter := by
    rintro _ _ ⟨⟩
    exact ⟨id, first_inside _⟩
  inner := by
    rintro _ _ _ _ (_ | _ | _ | _)
    · exact ⟨trivial, behind_inside _ _⟩
    · exact ⟨trivial, trivial⟩
    · exact ⟨trivial, trivial⟩
    · exact ⟨trivial, trivial⟩
  leave := by
    rintro _ _ ⟨⟩
    exact ⟨trivial, id⟩
  outer := by
    rintro _ _ (_ | _) <;> exact ⟨id, id⟩

/-- A client that has been started; nothing has been sent yet. -/
def clientLts (T : Type*) [DecidableEq T] (calloc : Bool) :
    Lts (State T Pc Link) (Event T Pc) :=
  guardedLts (client_program calloc) (fun _ l => l = .idle) fun link => link.sent = []

/-! One call alone -/

/-- The rest of a call that reads into `dst`. -/
def finish_read (calloc : Bool) (link : Link) (dst : TecBuffer) :
    Except Fault (Link × Option TecBuffer × Int) := do
  let r ← recv_ calloc link.self link.peer dst
  .ok ({ link with self := r.1, peer := r.2.1 }, some r.2.2.1, r.2.2.2)

/-- A call with the guard to itself. -/
def Call.exec (calloc : Bool) (answer : WriteAnswer) (call : Call) (link : Link) :
    Except Fault (Link × Option TecBuffer × Int) :=
  match call with
  | .send data =>
    .ok ({ link with sent := link.sent ++ call.taken answer }, none, send_ answer data)
  | .send_str str =>
    .ok ({ link with sent := link.sent ++ call.taken answer }, none, send_str_ answer str)
  | .recv data => finish_read calloc link data
  | .send_recv data_in data_out => do
    let r ← send_recv_ calloc answer link.self link.peer data_in data_out
    .ok (⟨r.1, link.sent ++ call.taken answer, r.2.1⟩, some r.2.2.1, r.2.2.2)
  | .send_recv_str str data_out => do
    let r ← send_recv_str_ calloc answer link.self link.peer str data_out
    .ok (⟨r.1, link.sent ++ call.taken answer, r.2.1⟩, some r.2.2.1, r.2.2.2)

theorem exec_sent (hdst : call.dst = none) (link : Link) :
    call.exec calloc answer link =
      .ok ({ link with sent := link.sent ++ call.taken answer }, none,
        call.write_error answer) := by
  cases call with
  | send | send_str => rfl
  | recv | send_recv | send_recv_str => cases hdst

theorem exec_failed (hfirst : call.first = .write call) (hdst : call.dst = some dst)
    (herror : call.write_error answer ≠ 0) (link : Link) :
    call.exec calloc answer link =
      .ok ({ link with sent := link.sent ++ call.taken answer }, some dst,
        call.write_error answer) := by
  cases call with
  | send | send_str => cases hdst
  | recv => cases hfirst
  | send_recv data_in data_out =>
    cases hdst
    have hwrite : TecSocket_write answer data_in ≠ 0 := herror
    simp only [Call.exec, send_recv_, recv_reply, if_neg hwrite]
    rfl
  | send_recv_str str data_out =>
    cases hdst
    have hwrite : TecSocket_write_str answer str ≠ 0 := herror
    simp only [Call.exec, send_recv_str_, recv_reply, if_neg hwrite]
    rfl

theorem exec_reply (hfirst : call.first = .write call) (hdst : call.dst = some dst)
    (herror : call.write_error answer = 0) (link : Link) :
    call.exec calloc answer link =
      finish_read calloc { link with sent := link.sent ++ call.taken answer } dst := by
  cases call with
  | send | send_str => cases hdst
  | recv => cases hfirst
  | send_recv data_in data_out =>
    cases hdst
    have hwrite : TecSocket_write answer data_in = 0 := herror
    simp only [Call.exec, send_recv_, recv_reply, if_pos hwrite]
    rfl
  | send_recv_str str data_out =>
    cases hdst
    have hwrite : TecSocket_write_str answer str = 0 := herror
    simp only [Call.exec, send_recv_str_, recv_reply, if_pos hwrite]
    rfl

/-- A round that reads something leaves the rest of the loop to do. -/
theorem finish_read_more {dst' : TecBuffer} {bytes : List UInt8} {data : Option (List UInt8)}
    {n : Nat} (hread : read link.self.sock.fd link.peer link.self.sock.buf.capacity = some bytes)
    (hne : bytes ≠ []) (hdata : memcpy_to link.self.sock.buf.data 0 bytes bytes.length = .ok data)
    (hwrite : TecBuffer_write calloc dst (data.getD []) bytes.length = .ok (dst', n)) :
    finish_read calloc link dst = finish_read calloc
      { link with
        self := { link.self with
          sock := { link.self.sock with buf := { link.self.sock.buf with data := data } } }
        peer := link.peer.skip link.self.sock.buf.capacity } dst' := by
  have hloop : read_loop calloc link.self.sock link.peer dst =
      read_loop calloc { link.self.sock with buf := { link.self.sock.buf with data := data } }
        (link.peer.skip link.self.sock.buf.capacity) dst' := by
    rw [read_loop]
    split
    · rename_i hnone
      cases hnone.symm.trans hread
    · rename_i bytes' hsome
      obtain rfl := Option.some.inj (hsome.symm.trans hread)
      rw [dif_neg hne, hdata, ok_bind, hwrite, ok_bind]
  simp only [finish_read, recv_, TecSocket_read, hloop]

theorem finish_read_closed
    (hread : read link.self.sock.fd link.peer link.self.sock.buf.capacity = some []) :
    finish_read calloc link dst = .ok (link, some dst, 0) := by
  have hloop : read_loop calloc link.self.sock link.peer dst =
      .ok (link.self.sock, link.peer, dst, 0) := by
    rw [read_loop]
    split
    · rename_i hnone
      cases hnone.symm.trans hread
    · rename_i bytes' hsome
      obtain rfl := Option.some.inj (hsome.symm.trans hread)
      rfl
  simp only [finish_read, recv_, TecSocket_read, hloop, ok_bind]

theorem finish_read_failed
    (hread : read link.self.sock.fd link.peer link.self.sock.buf.capacity = none) :
    finish_read calloc link dst =
      .ok (link, some dst, read_errno link.self.sock.fd link.peer) := by
  have hloop : read_loop calloc link.self.sock link.peer dst =
      .ok (link.self.sock, link.peer, dst, read_errno link.self.sock.fd link.peer) := by
    rw [read_loop]
    split
    · rfl
    · rename_i bytes' hsome
      cases hsome.symm.trans hread
  simp only [finish_read, recv_, TecSocket_read, hloop, ok_bind]

/-- What is left of a call under the guard has the result of the whole. -/
def Remains (calloc : Bool) (call : Call) (link₀ : Link) (l : Pc) (link : Link) : Prop :=
  match l with
  | .write c => c = call ∧ call.first = .write call ∧ link = link₀
  | .read dst => ∃ answer, Documented answer ∧
      call.exec calloc answer link₀ = finish_read calloc link dst
  | .unlock dst error => ∃ answer, Documented answer ∧
      call.exec calloc answer link₀ = .ok (link, dst, error)
  | _ => False

theorem remains_first (call : Call) (link : Link) : Remains calloc call link call.first link := by
  cases call with
  | recv data => exact ⟨⟨0, 0⟩, ⟨by decide, fun h => absurd h (by decide)⟩, rfl⟩
  | send | send_str | send_recv | send_recv_str => exact ⟨rfl, rfl, rfl⟩

theorem remains_inner {link₀ : Link} (hs : Inner calloc l link l' link')
    (h : Remains calloc call link₀ l link) : Remains calloc call link₀ l' link' := by
  cases hs with
  | @write c _ answer hanswer =>
    obtain ⟨rfl, hfirst, rfl⟩ := h
    cases hdst : c.dst with
    | none =>
      rw [Call.behind, hdst]
      exact ⟨answer, hanswer, exec_sent hdst link⟩
    | some dst =>
      rw [Call.behind, hdst]
      by_cases herror : c.write_error answer = 0
      · simp only [if_pos herror]
        exact ⟨answer, hanswer, exec_reply hfirst hdst herror link⟩
      · simp only [if_neg herror]
        exact ⟨answer, hanswer, exec_failed hfirst hdst herror link⟩
  | read hread hne hdata hwrite =>
    obtain ⟨answer, hanswer, hexec⟩ := h
    exact ⟨answer, hanswer, hexec.trans (finish_read_more hread hne hdata hwrite)⟩
  | closed hread =>
    obtain ⟨answer, hanswer, hexec⟩ := h
    exact ⟨answer, hanswer, hexec.trans (finish_read_closed hread)⟩
  | failed hread =>
    obtain ⟨answer, hanswer, hexec⟩ := h
    exact ⟨answer, hanswer, hexec.trans (finish_read_failed hread)⟩

/-- A section of the guard is one call. -/
theorem section_exec {before : Pc} (h : (client_program calloc).Section before link after link') :
    ∃ call answer dst error, before = .lock call ∧ after = .returned dst error ∧
      Documented answer ∧ call.exec calloc answer link = .ok (link', dst, error) := by
  obtain ⟨l, l', henter, hruns, hleave⟩ := h
  cases henter with
  | @lock call =>
    have hremains : Remains calloc call link l' link' := by
      clear hleave
      induction hruns with
      | refl => exact remains_first call _
      | snoc _ hs ih => exact remains_inner hs ih
    cases hleave with
    | @unlock dst error =>
      obtain ⟨answer, hanswer, hexec⟩ := hremains
      exact ⟨call, answer, dst, error, rfl, rfl, hanswer, hexec⟩

/-! Whole runs -/

/-- A call that has returned, and what the system answered to its write. -/
structure Reply (T : Type*) where
  thread : T
  call : Call
  answer : WriteAnswer
  dst : Option TecBuffer
  error : Int

/-- The calls one after the other, each with the guard to itself. -/
inductive Answered (calloc : Bool) : Link → List (Reply T) → Link → Prop
  | nil {link : Link} : Answered calloc link [] link
  | snoc {link link' link'' : Link} {rs : List (Reply T)} {r : Reply T}
      (h : Answered calloc link rs link') (hanswer : Documented r.answer)
      (k : r.call.exec calloc r.answer link' = .ok (link'', r.dst, r.error)) :
      Answered calloc link (rs ++ [r]) link''

/-- What a call has to say; a string goes with its terminator. -/
def Call.message : Call → List UInt8
  | .send data | .send_recv data _ => data.contents
  | .send_str (some s) | .send_recv_str (some s) _ => s ++ [0]
  | .send_str none | .send_recv_str none _ | .recv _ => []

/-- The length with the terminator is an `int`. -/
def Short (s : List UInt8) : Prop := s.length + 1 < 2147483648

/-- A buffer has as many bytes as it says, and a string is short. -/
def Call.Whole : Call → Prop
  | .send data | .send_recv data _ => data.contents.length = data.size
  | .send_str (some s) | .send_recv_str (some s) _ => Short s
  | .send_str none | .send_recv_str none _ | .recv _ => True

omit [DecidableEq T] in
theorem answered_of_serial {cs : List (T × Pc × Pc)}
    (h : Serial (client_program calloc) link cs link') :
    ∃ rs, Answered calloc link rs link' ∧
      cs = rs.map fun r => (r.thread, .lock r.call, .returned r.dst r.error) := by
  induction h with
  | nil => exact ⟨[], .nil, rfl⟩
  | @snoc _ _ _ t before after _ hsection ih =>
    obtain ⟨rs, hrs, rfl⟩ := ih
    obtain ⟨call, answer, dst, error, rfl, rfl, hanswer, hexec⟩ := section_exec hsection
    refine ⟨rs ++ [⟨t, call, answer, dst, error⟩], hrs.snoc hanswer hexec, ?_⟩
    rw [List.map_append]
    rfl

theorem finish_read_sent {r : Link × Option TecBuffer × Int}
    (h : finish_read calloc link dst = .ok r) : r.1.sent = link.sent := by
  obtain ⟨_, _, hr⟩ := bind_ok h
  cases hr
  rfl

theorem exec_taken {dst : Option TecBuffer} {error : Int}
    (h : call.exec calloc answer link = .ok (link', dst, error)) :
    link'.sent = link.sent ++ call.taken answer := by
  cases call with
  | send | send_str =>
    cases h
    rfl
  | recv data => exact (finish_read_sent h).trans (List.append_nil _).symm
  | send_recv | send_recv_str =>
    obtain ⟨_, _, hr⟩ := bind_ok h
    cases hr
    rfl

omit [DecidableEq T] in
theorem answered_taken {rs : List (Reply T)} (h : Answered calloc link rs link') :
    link'.sent = link.sent ++ rs.flatMap fun r => r.call.taken r.answer := by
  induction h with
  | nil => exact (List.append_nil _).symm
  | snoc _ _ hexec ih =>
    rw [exec_taken hexec, ih, List.flatMap_append, List.append_assoc]
    simp

/-- A call that returns 0 has written without an error. -/
theorem exec_written {dst : Option TecBuffer}
    (h : call.exec calloc answer link = .ok (link', dst, 0)) : call.write_error answer = 0 := by
  by_contra herror
  cases hdst : call.dst with
  | none =>
    rw [exec_sent hdst] at h
    exact herror (Prod.mk.inj (Prod.mk.inj (Except.ok.inj h)).2).2
  | some dst =>
    have hfirst : call.first = .write call := by
      cases call with
      | recv => exact absurd rfl herror
      | send | send_str | send_recv | send_recv_str => rfl
    rw [exec_failed hfirst hdst herror] at h
    exact herror (Prod.mk.inj (Prod.mk.inj (Except.ok.inj h)).2).2

theorem taken_of_written {src : TecBuffer} (hlength : src.contents.length = src.size)
    (hanswer : Documented answer) (hok : TecSocket_write answer src = 0) :
    TcpClient.taken answer src = src.contents := by
  by_cases hsize : src.size = 0
  · rw [TcpClient.taken, if_pos hsize]
    exact (List.length_eq_zero_iff.mp (hlength.trans hsize)).symm
  · have hsent : ¬ answer.sent < 0 := by
      intro hneg
      rw [TecSocket_write, if_neg hsize, if_pos hneg] at hok
      exact hanswer.2 hneg hok
    have hall : src.size = toSize answer.sent := by
      by_contra hpart
      rw [TecSocket_write, if_neg hsize, if_neg hsent, if_pos hpart] at hok
      cases hok
    have hlt := hanswer.1
    have hcount : src.size = answer.sent.toNat := by
      rw [hall, toSize]
      omega
    rw [TcpClient.taken, if_neg hsize, ← hcount, ← hlength, List.take_length]

theorem str_buf_contents {s : List UInt8} (h : Short s) :
    (str_buf s).contents = s ++ [0] ∧ (str_buf s).size = s.length + 1 := by
  unfold Short at h
  have hint : toInt ((s.length + 1 : Nat) : Int) = ((s.length + 1 : Nat) : Int) := toInt_of_lt h
  have hsize : (str_buf s).size = s.length + 1 := by
    rw [Int.natCast_add, Int.natCast_one] at hint
    simp only [str_buf, hint]
    unfold toSize
    omega
  refine ⟨?_, hsize⟩
  rw [TecBuffer.contents, hsize]
  exact List.take_of_length_le (by simp [TecBuffer.block, str_buf])

theorem taken_src {src : TecBuffer} (h : call.src = some src) :
    call.taken answer = TcpClient.taken answer src := by
  rw [Call.taken, h, Option.elim_some]

theorem write_str_eq (answer : WriteAnswer) (s : List UInt8) :
    TecSocket_write_str answer (some s) = TecSocket_write answer (str_buf s) := by
  rw [TecSocket_write_str, str_buf]

theorem str_taken {s : List UInt8} (hanswer : Documented answer) (hs : Short s)
    (hok : TecSocket_write_str answer (some s) = 0) :
    TcpClient.taken answer (str_buf s) = s ++ [0] := by
  obtain ⟨hcontents, hsize⟩ := str_buf_contents hs
  have hlength : (str_buf s).contents.length = (str_buf s).size := by
    rw [hcontents, hsize]
    exact List.length_append
  rw [write_str_eq] at hok
  rw [taken_of_written hlength hanswer hok, hcontents]

theorem call_taken (hanswer : Documented answer) (hwhole : call.Whole)
    (hok : call.write_error answer = 0) : call.taken answer = call.message := by
  cases call with
  | send data =>
    have hsrc : (Call.send data).src = some data := rfl
    rw [taken_src hsrc]
    exact taken_of_written hwhole hanswer hok
  | send_recv data_in data_out =>
    have hsrc : (Call.send_recv data_in data_out).src = some data_in := rfl
    rw [taken_src hsrc]
    exact taken_of_written hwhole hanswer hok
  | recv => rfl
  | send_str str =>
    cases str with
    | none => rfl
    | some s =>
      have hsrc : (Call.send_str (some s)).src = some (str_buf s) := rfl
      rw [taken_src hsrc]
      exact str_taken hanswer hwhole hok
  | send_recv_str str data_out =>
    cases str with
    | none => rfl
    | some s =>
      have hsrc : (Call.send_recv_str (some s) data_out).src = some (str_buf s) := rfl
      rw [taken_src hsrc]
      exact str_taken hanswer hwhole hok

omit [DecidableEq T] in
theorem answered_messages {rs : List (Reply T)} (h : Answered calloc link rs link')
    (hok : ∀ r ∈ rs, r.call.Whole ∧ r.error = 0) :
    link'.sent = link.sent ++ rs.flatMap fun r => r.call.message := by
  induction h with
  | nil => exact (List.append_nil _).symm
  | @snoc _ _ rs r _ hanswer hexec ih =>
    obtain ⟨hwhole, hzero⟩ := hok r List.mem_concat_self
    rw [hzero] at hexec
    rw [exec_taken hexec, ih fun r hr => hok r (List.mem_append_left _ hr),
      call_taken hanswer hwhole (exec_written hexec), List.flatMap_append, List.append_assoc]
    simp

/-- The calls are one after the other, in the order in which they take the guard: each returns what
it would return alone, and its bytes are in one piece. Once all calls have returned 0, the server
reads their messages and nothing else, however they arrive. -/
theorem client_calls_serial (xs : List (Event T Pc)) (s : State T Pc Link)
    (h : (clientLts T calloc).History xs s) (hfree : s.mtx = none) :
    ∃ link₀ rs, link₀.sent = [] ∧ Answered calloc link₀ rs s.shared ∧
      xs.filterMap Event.locked? = rs.map (fun r => (r.thread, .lock r.call)) ∧
      xs.filterMap Event.unlocked? = rs.map (fun r => (r.thread, .returned r.dst r.error)) ∧
      s.shared.sent = (rs.flatMap fun r => r.call.taken r.answer) ∧
      ((∀ r ∈ rs, r.call.Whole ∧ r.error = 0) →
        ∀ sock peer dst, Receives sock → peer.stream = s.shared.sent → peer.errno = 0 →
          Roomy dst → dst.capacity ≠ 0 →
          dst.pos + s.shared.sent.length < 9223372036854775808 →
          ∃ sock' peer' dst', TecSocket_read true sock peer dst = .ok (sock', peer', dst', 0) ∧
            peer'.stream = [] ∧ Written dst (rs.flatMap fun r => r.call.message) dst') := by
  obtain ⟨_, link₀, cs, link, begun, hstart, hser⟩ := history_serialized h
  have hgoes := hser.goes_on
  rw [InProgress, hfree] at hgoes
  obtain ⟨rfl, rfl⟩ := hgoes
  obtain ⟨rs, hrs, rfl⟩ := answered_of_serial hser.serial
  refine ⟨link₀, rs, hstart, hrs, ?_, ?_, ?_, ?_⟩
  · rw [hser.locked, List.append_nil, List.map_map]
    rfl
  · rw [hser.unlocked, List.map_map]
    rfl
  · rw [answered_taken hrs, hstart, List.nil_append]
  · intro hok sock peer dst hsock hstream herrno hdst hroom hfit
    have hsent := answered_messages hrs hok
    rw [hstart, List.nil_append] at hsent
    obtain ⟨sock', peer', dst', hread, hrest, hwritten⟩ :=
      read_loop_spec peer.stream.length rfl hsock hdst hroom (by rw [hstream]; exact hfit)
    rw [herrno] at hread
    rw [hstream, hsent] at hwritten
    exact ⟨sock', peer', dst', hread, hrest, hwritten⟩

/-- Two threads send a character each; the second one takes the guard first. -/
theorem client_calls_serial_two_threads :
    ∃ s : State Nat Pc Link, (clientLts Nat true).History
        [.other 0, .other 1, .lock 1 (.lock (.send_str (some [66]))), .other 1,
          .unlock 1 (.returned none 0), .lock 0 (.lock (.send_str (some [65]))), .other 0,
          .unlock 0 (.returned none 0)] s ∧
      s.shared.sent = [66, 0, 65, 0] ∧
      ∃ link₀, ∃ rs : List (Reply Nat), link₀.sent = [] ∧ Answered true link₀ rs s.shared := by
  let self : TecTCPClient :=
    ⟨⟨SOCK_STREAM, 80⟩, ⟨3, some 1, ⟨none, 0, 0, 0, 80⟩, ⟨SOCK_STREAM, 80⟩⟩, ⟨none, 0, 0, 0, 80⟩⟩
  have hanswer : Documented ⟨2, 0⟩ := ⟨by decide, fun h => absurd h (by decide)⟩
  have h0 : (clientLts Nat true).History [] ⟨none, fun _ => .idle, self, [], ⟨[], 0, by simp⟩⟩ :=
    .init ⟨rfl, fun _ => ⟨rfl, id⟩, rfl⟩
  have h1 := h0.snoc (@Step.outer _ _ _ _ _ _ 0 _ (@Outer.call (.send_str (some [65]))))
  have h2 := h1.snoc (@Step.outer _ _ _ _ _ _ 1 _ (@Outer.call (.send_str (some [66]))))
  have h3 := h2.snoc (@Step.lock _ _ _ _ _ _ 1 _ rfl .lock)
  have h4 := h3.snoc (@Step.inner _ _ _ _ _ _ 1 _ _ (.write hanswer))
  have h5 := h4.snoc (@Step.unlock _ _ _ _ _ _ 1 _ .unlock)
  have h6 := h5.snoc (@Step.lock _ _ _ _ _ _ 0 _ rfl .lock)
  have h7 := h6.snoc (@Step.inner _ _ _ _ _ _ 0 _ _ (.write hanswer))
  have h8 := h7.snoc (@Step.unlock _ _ _ _ _ _ 0 _ .unlock)
  obtain ⟨link₀, rs, hstart, hrs, _⟩ := client_calls_serial _ _ h8 rfl
  exact ⟨_, h8, rfl, link₀, rs, hstart, hrs⟩

end Tecc.TcpClient
