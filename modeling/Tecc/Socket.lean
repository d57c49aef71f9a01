import Tecc.BufferCapacity
import Tecc.Lib.Object

/-! The sockets of tecc_socket.c. What the system calls answer is an argument. -/
namespace Tecc.Socket

open Machine Block Buffer Object

def EIO : Int := 5
def EBADF : Int := 9
def EPROTONOSUPPORT : Int := 93
def ECONNREFUSED : Int := 111

def SOCK_STREAM : Int := 1
def AF_INET : Int := 2
def AF_INET6 : Int := 10

structure TecSocketParams where
  socktype : Int
  buffer_size : Nat

/-- `pai` is the list that `getaddrinfo` has returned. -/
structure TecSocket where
  fd : Int
  pai : Option Nat
  buf : TecBuffer
  params : TecSocketParams

def TecSocket_init_ (params : TecSocketParams) : Except Fault TecSocket := do
  let buf ← TecBuffer_init_ true 0 params.buffer_size
  .ok { fd := -1, pai := none, buf := buf, params := params }

def TecSocket_close (sock : TecSocket) : TecSocket :=
  if sock.fd ≠ -1 then { sock with fd := -1, pai := none } else sock

/-- The answers to `TecSocket_open`; `res` is the list of addresses. -/
structure OpenAnswer where
  getaddrinfo : Int
  res : Nat
  socket : Int
  errno : Int

def TecSocket_open (answer : OpenAnswer) (sock : TecSocket) : TecSocket × Int :=
  if sock.params.socktype ≠ SOCK_STREAM then (sock, EPROTONOSUPPORT)
  else if answer.getaddrinfo ≠ 0 then (sock, answer.getaddrinfo)
  else if answer.socket = -1 then (sock, answer.errno)
  else ({ sock with fd := answer.socket, pai := some answer.res }, 0)

/-- The answers to `TecSocket_connect`; `family` is the family of the address of the peer. -/
structure ConnectAnswer where
  connect : Int
  getpeername : Int
  family : Int
  errno : Int

def get_socket_info (answer : ConnectAnswer) : Int :=
  if answer.getpeername = -1 then answer.errno
  else if answer.family = AF_INET ∨ answer.family = AF_INET6 then answer.getpeername
  else EPROTONOSUPPORT

def TecSocket_connect (answer : ConnectAnswer) (sock : TecSocket) : TecSocket × Int :=
  if sock.fd = -1 ∨ sock.pai = none then (sock, EBADF)
  else if answer.connect = -1 then (TecSocket_close sock, ECONNREFUSED)
  else (sock, get_socket_info answer)

/-- What a peer sends: the bytes in the pieces in which they arrive, and behind them the end of
the stream, or an error that is not 0. -/
structure Peer where
  pieces : List (List UInt8)
  errno : Int
  nonempty : ∀ piece ∈ pieces, piece ≠ []

/-- The bytes that have not been read yet. -/
def Peer.stream (peer : Peer) : List UInt8 := peer.pieces.flatten

/-- A read takes a piece, or as much of it as there is room for. -/
def Peer.skip (peer : Peer) (count : Nat) : Peer :=
  match hpieces : peer.pieces with
  | [] => peer
  | piece :: rest =>
    { peer with
      pieces := if piece.length ≤ count then rest else piece.drop count :: rest
      nonempty := by
        have hrest : ∀ p ∈ rest, p ≠ [] :=
          fun p hp => peer.nonempty p (by rw [hpieces]; exact List.mem_cons_of_mem _ hp)
        intro p hp
        split at hp
        · exact hrest p hp
        · rcases List.mem_cons.mp hp with rfl | hp
          · rw [← List.length_pos_iff, List.length_drop]
            omega
          · exact hrest p hp }

/-- `read(fd, buffer, count)`: the bytes received, or none with `errno`. -/
def read (fd : Int) (peer : Peer) (count : Nat) : Option (List UInt8) :=
  if fd = -1 then none
  else if count = 0 then some []
  else
    match peer.pieces with
    | [] => if peer.errno = 0 then some [] else none
    | piece :: _ => some (piece.take count)

def read_errno (fd : Int) (peer : Peer) : Int := if fd = -1 then EBADF else peer.errno

/-- What is read and what is left make up what was there. -/
theorem stream_eq {fd : Int} {peer : Peer} {count : Nat} {bytes : List UInt8}
    (h : read fd peer count = some bytes) (hne : bytes ≠ []) :
    peer.stream = bytes ++ (peer.skip count).stream := by
  by_cases hfd : fd = -1
  · rw [read, if_pos hfd] at h
    cases h
  · by_cases hcount : count = 0
    · rw [read, if_neg hfd, if_pos hcount] at h
      exact absurd (Option.some.inj h).symm hne
    · obtain ⟨pieces, errno, nonempty⟩ := peer
      rw [read, if_neg hfd, if_neg hcount] at h
      cases pieces with
      | nil =>
        by_cases herrno : errno = 0
        · rw [if_pos herrno] at h
          exact absurd (Option.some.inj h).symm hne
        · rw [if_neg herrno] at h
          cases h
      | cons piece rest =>
        obtain rfl := Option.some.inj h
        by_cases hfit : piece.length ≤ count
        · simp [Peer.stream, Peer.skip, hfit, List.take_of_length_le hfit]
        · simp [Peer.stream, Peer.skip, hfit, ← List.append_assoc]

theorem read_shrinks {fd : Int} {peer : Peer} {count : Nat} {bytes : List UInt8}
    (h : read fd peer count = some bytes) (hne : bytes ≠ []) :
    (peer.skip count).stream.length < peer.stream.length := by
  have hbytes := stream_eq h hne
  have hlength := congrArg List.length hbytes
  rw [List.length_append] at hlength
  have hpos := List.length_pos_iff.mpr hne
  omega

/-- The loop of `TecSocket_read`: the socket and what is left of the stream, the destination, and
the error. -/
def read_loop (calloc : Bool) (sock : TecSocket) (peer : Peer) (dst : TecBuffer) :
    Except Fault (TecSocket × Peer × TecBuffer × Int) :=
  match hread : read sock.fd peer sock.buf.capacity with
  | none => .ok (sock, peer, dst, read_errno sock.fd peer)
  | some bytes =>
    if hne : bytes = [] then .ok (sock, peer, dst, 0)
    else do
      have := read_shrinks hread hne
      let data ← memcpy_to sock.buf.data 0 bytes bytes.length
      let r ← TecBuffer_write calloc dst (data.getD []) bytes.length
      read_loop calloc { sock with buf := { sock.buf with data := data } }
        (peer.skip sock.buf.capacity) r.1
  termination_by peer.stream.length

def TecSocket_read (calloc : Bool) (sock : TecSocket) (peer : Peer) (dst : TecBuffer) :
    Except Fault (TecSocket × Peer × TecBuffer × Int) :=
  read_loop calloc sock peer dst

/-- The answers to `write`. -/
structure WriteAnswer where
  sent : Int
  errno : Int

def TecSocket_write (answer : WriteAnswer) (src : TecBuffer) : Int :=
  if src.size = 0 then 0
  else if answer.sent < 0 then answer.errno
  else if src.size ≠ toSize answer.sent then EIO
  else 0

/-- `s` holds the characters before the terminator, `none` is the null pointer. -/
def TecSocket_write_str (answer : WriteAnswer) (s : Option (List UInt8)) : Int :=
  match s with
  | none => 0
  | some s =>
    let len := toInt (s.length + 1)
    TecSocket_write answer
      { data := some (s ++ [0]), pos := 0, size := toSize len, capacity := toSize len
        block_size := 0 }

end Tecc.Socket
