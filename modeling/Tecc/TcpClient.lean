import Tecc.Socket

/-! The client of tecc_tcp_client.c. Its calls hold the guard, so they come one after another. -/
namespace Tecc.TcpClient

open Machine Buffer Object Socket

structure TecTCPClient where
  socket_params : TecSocketParams
  sock : TecSocket
  buffer : TecBuffer

def TecTCPClient_init_ (socket_params : TecSocketParams) : Except Fault TecTCPClient := do
  let sock ← TecSocket_init_ socket_params
  let buffer ← TecBuffer_init_ true 0 socket_params.buffer_size
  .ok { socket_params := socket_params, sock := sock, buffer := buffer }

/-- The client afterwards, and what is written to `*error`. -/
def start_ (calloc : Bool) (opened : OpenAnswer) (connected : ConnectAnswer)
    (self : TecTCPClient) : Except Fault (TecTCPClient × Int) :=
  let r := TecSocket_open opened self.sock
  if r.2 ≠ 0 then .ok ({ self with sock := r.1 }, r.2)
  else
    let r := TecSocket_connect connected r.1
    if r.2 ≠ 0 then .ok ({ self with sock := r.1 }, r.2)
    else do
      let buffer ← TecBuffer_init_ calloc self.socket_params.buffer_size
        self.socket_params.buffer_size
      .ok ({ self with sock := r.1, buffer := buffer }, 0)

def recv_ (calloc : Bool) (self : TecTCPClient) (peer : Peer) (data : TecBuffer) :
    Except Fault (TecTCPClient × Peer × TecBuffer × Int) := do
  let r ← TecSocket_read calloc self.sock peer data
  .ok ({ self with sock := r.1 }, r.2)

/-- The part of a request that follows the write. -/
def recv_reply (calloc : Bool) (self : TecTCPClient) (peer : Peer) (data_out : TecBuffer)
    (error : Int) : Except Fault (TecTCPClient × Peer × TecBuffer × Int) :=
  if error = 0 then recv_ calloc self peer data_out else .ok (self, peer, data_out, error)

def send_recv_ (calloc : Bool) (answer : WriteAnswer) (self : TecTCPClient) (peer : Peer)
    (data_in data_out : TecBuffer) : Except Fault (TecTCPClient × Peer × TecBuffer × Int) :=
  recv_reply calloc self peer data_out (TecSocket_write answer data_in)

def send_recv_str_ (calloc : Bool) (answer : WriteAnswer) (self : TecTCPClient) (peer : Peer)
    (str : Option (List UInt8)) (data_out : TecBuffer) :
    Except Fault (TecTCPClient × Peer × TecBuffer × Int) :=
  recv_reply calloc self peer data_out (TecSocket_write_str answer str)

/-- A call that has appended the whole stream of the peer to `data`, and returns 0. -/
def ReceivedAll (peer : Peer) (data : TecBuffer)
    (r : Except Fault (TecTCPClient × Peer × TecBuffer × Int)) : Prop :=
  ∃ self peer' data', r = .ok (self, peer', data', 0) ∧
    data'.contents = data.contents ++ peer.stream ∧ peer'.stream = []

variable {calloc : Bool} {params : TecSocketParams} {opened : OpenAnswer}
  {connected : ConnectAnswer} {self self' : TecTCPClient} {peer : Peer} {data : TecBuffer}

theorem open_buf (answer : OpenAnswer) (sock : TecSocket) :
    (TecSocket_open answer sock).1.buf = sock.buf := by
  unfold TecSocket_open
  split
  · rfl
  · split
    · rfl
    · split <;> rfl

/-- A socket that is connected is open, and has the buffer that it had. -/
theorem connect_ok {answer : ConnectAnswer} {sock : TecSocket}
    (h : (TecSocket_connect answer sock).2 = 0) :
    (TecSocket_connect answer sock).1 = sock ∧ sock.fd ≠ -1 := by
  by_cases hclosed : sock.fd = -1 ∨ sock.pai = none
  · rw [TecSocket_connect, if_pos hclosed] at h
    cases h
  · by_cases hrefused : answer.connect = -1
    · rw [TecSocket_connect, if_neg hclosed, if_pos hrefused] at h
      cases h
    · rw [TecSocket_connect, if_neg hclosed, if_neg hrefused]
      exact ⟨rfl, fun hfd => hclosed (.inl hfd)⟩

theorem init_buf (h : TecTCPClient_init_ params = .ok self) : self.sock.buf.capacity = 0 := by
  obtain ⟨sock, hsock, hself⟩ := bind_ok h
  obtain ⟨buf, hbuf, hsock⟩ := bind_ok hsock
  obtain ⟨buffer, _, hself⟩ := bind_ok hself
  cases hself
  cases hsock
  cases hbuf
  rfl

/-- `start_` gives memory to the buffer of the client, and none to the buffer of its socket. -/
theorem started (h : TecTCPClient_init_ params = .ok self)
    (hstart : start_ calloc opened connected self = .ok (self', 0)) :
    self'.sock.fd ≠ -1 ∧ self'.sock.buf.capacity = 0 := by
  by_cases hopen : (TecSocket_open opened self.sock).2 = 0
  · by_cases hconnect :
      (TecSocket_connect connected (TecSocket_open opened self.sock).1).2 = 0
    · obtain ⟨hsame, hfd⟩ := connect_ok hconnect
      simp only [start_, hopen, hconnect, ne_eq, not_true_eq_false, if_false, hsame] at hstart
      obtain ⟨buffer, _, hself⟩ := bind_ok hstart
      cases hself
      exact ⟨hfd, by rw [open_buf, init_buf h]⟩
    · simp only [start_, hopen, ne_eq, not_true_eq_false, if_false, if_pos hconnect] at hstart
      exact absurd (Prod.mk.inj (Except.ok.inj hstart)).2 hconnect
  · simp only [start_, ne_eq, if_pos hopen] at hstart
    exact absurd (Prod.mk.inj (Except.ok.inj hstart)).2 hopen

/-- Where the system calls succeed, so does `start_`. -/
theorem start_succeeds (params : TecSocketParams) (opened : OpenAnswer)
    (connected : ConnectAnswer) (hsize : params.buffer_size < 18446744073709551616)
    (htype : params.socktype = SOCK_STREAM) (haddr : opened.getaddrinfo = 0)
    (hsocket : opened.socket ≠ -1) (hconnect : connected.connect ≠ -1)
    (hinfo : get_socket_info connected = 0) :
    ∃ self self', TecTCPClient_init_ params = .ok self ∧
      start_ true opened connected self = .ok (self', 0) := by
  obtain ⟨buf, hbuf, _⟩ := TecBuffer_init_spec 0 params.buffer_size (by decide)
  obtain ⟨buffer, hbuffer, _⟩ := TecBuffer_init_spec params.buffer_size params.buffer_size hsize
  let sock : TecSocket := { fd := -1, pai := none, buf := buf, params := params }
  let client : TecTCPClient := { socket_params := params, sock := sock, buffer := buf }
  have hinit : TecTCPClient_init_ params = .ok client := by
    rw [TecTCPClient_init_, TecSocket_init_, hbuf, ok_bind, ok_bind, ok_bind]
  have hopen : TecSocket_open opened sock =
      ({ sock with fd := opened.socket, pai := some opened.res }, 0) := by
    simp [TecSocket_open, sock, htype, haddr, hsocket]
  have hconnected : TecSocket_connect connected
      { sock with fd := opened.socket, pai := some opened.res } =
        ({ sock with fd := opened.socket, pai := some opened.res }, 0) := by
    simp [TecSocket_connect, hsocket, hconnect, hinfo]
  have hstart : start_ true opened connected client =
      .ok ({ client with
        sock := { sock with fd := opened.socket, pai := some opened.res }
        buffer := buffer }, 0) := by
    simp only [start_, client, hopen, hconnected, ne_eq, not_true_eq_false, if_false]
    rw [hbuffer, ok_bind]
  exact ⟨client, _, hinit, hstart⟩

/-- A read without room returns 0, whatever the peer has sent. -/
theorem recv_nothing (hfd : self.sock.fd ≠ -1) (hcap : self.sock.buf.capacity = 0) :
    recv_ calloc self peer data = .ok (self, peer, data, 0) := by
  have hread : read self.sock.fd peer self.sock.buf.capacity = some [] := by
    rw [Socket.read, if_neg hfd, if_pos hcap]
  have hloop : read_loop calloc self.sock peer data = .ok (self.sock, peer, data, 0) := by
    rw [read_loop]
    split
    · rename_i hnone
      cases hnone.symm.trans hread
    · rename_i bytes hsome
      obtain rfl := Option.some.inj (hsome.symm.trans hread)
      rfl
  rw [recv_, TecSocket_read, hloop, ok_bind]

theorem receivedAll_iff (hfd : self.sock.fd ≠ -1) (hcap : self.sock.buf.capacity = 0) :
    ReceivedAll peer data (recv_ calloc self peer data) ↔ peer.stream = [] := by
  rw [recv_nothing hfd hcap]
  constructor
  · rintro ⟨_, _, _, hr, _, hunread⟩
    cases hr
    exact hunread
  · intro hempty
    exact ⟨_, _, _, rfl, by rw [hempty, List.append_nil], hempty⟩

/-- A client that has started receives what the peer sent when the peer sent nothing. -/
theorem client_receives (h : TecTCPClient_init_ params = .ok self)
    (hstart : start_ calloc opened connected self = .ok (self', 0)) (peer : Peer)
    (data : TecBuffer) :
    (ReceivedAll peer data (recv_ calloc self' peer data) ↔ peer.stream = []) ∧
      (∀ answer data_in, TecSocket_write answer data_in = 0 →
        (ReceivedAll peer data (send_recv_ calloc answer self' peer data_in data) ↔
          peer.stream = [])) ∧
      ∀ answer str, TecSocket_write_str answer str = 0 →
        (ReceivedAll peer data (send_recv_str_ calloc answer self' peer str data) ↔
          peer.stream = []) := by
  obtain ⟨hfd, hcap⟩ := started h hstart
  have hrecv : ReceivedAll peer data (recv_ calloc self' peer data) ↔ peer.stream = [] :=
    receivedAll_iff hfd hcap
  refine ⟨hrecv, ?_, ?_⟩
  · intro answer data_in hsent
    rwa [send_recv_, recv_reply, if_pos hsent]
  · intro answer str hsent
    rwa [send_recv_str_, recv_reply, if_pos hsent]

/-- A client that has started, of a peer that closes at once, with room in the destination. -/
theorem client_receives_silent :
    ∃ (self self' : TecTCPClient) (data : TecBuffer),
      TecTCPClient_init_ ⟨SOCK_STREAM, 1024⟩ = .ok self ∧
      start_ true ⟨0, 1, 3, 0⟩ ⟨0, 0, AF_INET, 0⟩ self = .ok (self', 0) ∧
      TecBuffer_init_ true 16 16 = .ok data ∧
      ReceivedAll ⟨[], 0, by simp⟩ data (recv_ true self' ⟨[], 0, by simp⟩ data) := by
  obtain ⟨self, self', hinit, hstart⟩ := start_succeeds ⟨SOCK_STREAM, 1024⟩ ⟨0, 1, 3, 0⟩
    ⟨0, 0, AF_INET, 0⟩ (by decide) rfl rfl (by decide) (by decide) rfl
  obtain ⟨data, hdata, _⟩ := TecBuffer_init_spec 16 16 (by decide)
  exact ⟨self, self', data, hinit, hstart, hdata, (client_receives hinit hstart _ _).1.mpr rfl⟩

/-- The peer sends one byte, and `recv_` returns 0 without it. -/
theorem client_loses_byte :
    ¬ ∀ (params : TecSocketParams) (opened : OpenAnswer) (connected : ConnectAnswer)
      (self self' : TecTCPClient), TecTCPClient_init_ params = .ok self →
      start_ true opened connected self = .ok (self', 0) →
      ∀ (peer : Peer), peer.errno = 0 → ∀ (initial_size block_size : Nat) (data : TecBuffer),
      initial_size ≠ 0 → TecBuffer_init_ true initial_size block_size = .ok data →
      ReceivedAll peer data (recv_ true self' peer data) := by
  intro h
  obtain ⟨self, self', hinit, hstart⟩ := start_succeeds ⟨SOCK_STREAM, 1024⟩ ⟨0, 1, 3, 0⟩
    ⟨0, 0, AF_INET, 0⟩ (by decide) rfl rfl (by decide) (by decide) rfl
  obtain ⟨data, hdata, _⟩ := TecBuffer_init_spec 16 16 (by decide)
  obtain ⟨hfd, hcap⟩ := started hinit hstart
  have hall := h _ _ _ self self' hinit hstart ⟨[[0x41]], 0, by simp⟩ rfl 16 16 data (by decide)
    hdata
  have hempty : [(0x41 : UInt8)] = [] := (receivedAll_iff hfd hcap).mp hall
  cases hempty

end Tecc.TcpClient
