import Tecc.Socket
import Tecc.Lib.Ledger

/-! The descriptors and the address lists of a socket: which call obtains them, which call gives
them back, and who holds them in between. -/
namespace Tecc.Socket

open Object Ledger

variable {params : TecSocketParams} {sock : TecSocket}

/-- What a socket obtains from the system. -/
inductive Resource where
  | descriptor (fd : Int)
  | addrinfo (res : Nat)
deriving DecidableEq, Repr

/-- The answer to `TecSocket_bind` and to `TecSocket_listen`. -/
structure BindAnswer where
  result : Int
  errno : Int

def TecSocket_bind (answer : BindAnswer) (sock : TecSocket) : Int :=
  if sock.fd ≠ -1 ∧ sock.pai ≠ none then
    if answer.result = -1 then answer.errno else 0
  else EBADF

def TecSocket_listen (answer : BindAnswer) (sock : TecSocket) : Int :=
  if sock.fd ≠ -1 then
    if answer.result = -1 then answer.errno else 0
  else EBADF

/-- The calls on one socket, each with the answers of the system calls that it makes. -/
inductive SocketOp where
  | open (answer : OpenAnswer)
  | connect (answer : ConnectAnswer)
  | bind (answer : BindAnswer)
  | listen (answer : BindAnswer)
  | close

/-- The calls of `getaddrinfo` and `socket` in `TecSocket_open` that return a resource. -/
def TecSocket_open_entries (answer : OpenAnswer) (sock : TecSocket) : List (Entry Resource) :=
  if sock.params.socktype ≠ SOCK_STREAM then []
  else if answer.getaddrinfo ≠ 0 then []
  else if answer.socket = -1 then [.acquired (.addrinfo answer.res)]
  else [.acquired (.addrinfo answer.res), .acquired (.descriptor answer.socket)]

/-- The calls of `close` and `freeaddrinfo` in `TecSocket_close`. -/
def TecSocket_close_entries (sock : TecSocket) : List (Entry Resource) :=
  if sock.fd ≠ -1 then
    .released (.descriptor sock.fd) ::
      (match sock.pai with
      | some res => [.released (.addrinfo res)]
      | none => [])
  else []

/-- `TecSocket_connect` closes a socket whose connection is refused. -/
def TecSocket_connect_entries (answer : ConnectAnswer) (sock : TecSocket) :
    List (Entry Resource) :=
  if sock.fd = -1 ∨ sock.pai = none then []
  else if answer.connect = -1 then TecSocket_close_entries sock
  else []

def socket_step (sock : TecSocket) : SocketOp → TecSocket × List (Entry Resource)
  | .open answer => ((TecSocket_open answer sock).1, TecSocket_open_entries answer sock)
  | .connect answer => ((TecSocket_connect answer sock).1, TecSocket_connect_entries answer sock)
  | .bind _ => (sock, [])
  | .listen _ => (sock, [])
  | .close => (TecSocket_close sock, TecSocket_close_entries sock)

/-- The socket after the calls, and the entries that they have made. -/
def after (sock : TecSocket) (ops : List SocketOp) : TecSocket := (specRun socket_step sock ops).1

def entries (sock : TecSocket) (ops : List SocketOp) : List (Entry Resource) :=
  (specRun socket_step sock ops).2.flatten

/-- What the socket holds. -/
def held (sock : TecSocket) : List Resource :=
  (if sock.fd = -1 then [] else [.descriptor sock.fd]) ++ sock.pai.toList.map .addrinfo

/-- `TecSocket_open` is called when `fd` is -1. -/
def OpensClosed (sock : TecSocket) : SocketOp → Prop
  | .open _ => sock.fd = -1
  | .connect _ | .bind _ | .listen _ | .close => True

/-- `getaddrinfo` has returned a list, and `socket` fails. -/
def Leaks (params : TecSocketParams) : SocketOp → Prop
  | .open answer =>
    params.socktype = SOCK_STREAM ∧ answer.getaddrinfo = 0 ∧ answer.socket = -1
  | .connect _ | .bind _ | .listen _ | .close => False

/-- The descriptor and the list are there together. -/
def Paired (sock : TecSocket) : Prop := sock.fd = -1 ↔ sock.pai = none

/-- What a call does to the account: the resources it loses are not held any more. -/
structure Accounts (sock : TecSocket) (op : SocketOp) (lost : List Resource) : Prop where
  paired : Paired (socket_step sock op).1
  params : (socket_step sock op).1.params = sock.params
  balanced : Balanced (held sock) (socket_step sock op).2 (held (socket_step sock op).1 ++ lost)
  lost_iff : lost = [] ↔ ¬ Leaks sock.params op

theorem held_closed (hfd : sock.fd = -1) (hpai : sock.pai = none) : held sock = [] := by
  simp [held, hfd, hpai]

theorem held_open {res : Nat} (hfd : sock.fd ≠ -1) (hpai : sock.pai = some res) :
    held sock = [.descriptor sock.fd, .addrinfo res] := by
  simp [held, hfd, hpai]

theorem close_closed (hfd : sock.fd = -1) :
    TecSocket_close sock = sock ∧ TecSocket_close_entries sock = [] :=
  ⟨if_neg (not_not.mpr hfd), if_neg (not_not.mpr hfd)⟩

theorem close_open {res : Nat} (hfd : sock.fd ≠ -1) (hpai : sock.pai = some res) :
    TecSocket_close sock = { sock with fd := -1, pai := none } ∧
      TecSocket_close_entries sock =
        [.released (.descriptor sock.fd), .released (.addrinfo res)] := by
  refine ⟨if_pos hfd, ?_⟩
  rw [TecSocket_close_entries, if_pos hfd, hpai]

/-- A call that leaves the socket as it is. -/
theorem accounts_same {op : SocketOp} (h : Paired sock) (hstep : socket_step sock op = (sock, []))
    (hleaks : ¬ Leaks sock.params op) : Accounts sock op [] := by
  refine ⟨?_, ?_, ?_, iff_of_true rfl hleaks⟩
  · rw [hstep]
    exact h
  · rw [hstep]
  · rw [hstep, List.append_nil]
    exact balanced_nil _

/-- A call that closes the socket gives back both resources. -/
theorem accounts_close {op : SocketOp} (h : Paired sock)
    (hstep : socket_step sock op = (TecSocket_close sock, TecSocket_close_entries sock))
    (hleaks : ¬ Leaks sock.params op) : Accounts sock op [] := by
  by_cases hfd : sock.fd = -1
  · obtain ⟨hsame, hnone⟩ := close_closed hfd
    rw [hsame, hnone] at hstep
    exact accounts_same h hstep hleaks
  · obtain ⟨res, hpai⟩ := Option.ne_none_iff_exists'.mp (fun hnone => hfd (h.mpr hnone))
    obtain ⟨hclosed, hentries⟩ := close_open hfd hpai
    rw [hclosed, hentries] at hstep
    refine ⟨?_, ?_, ?_, iff_of_true rfl hleaks⟩
    · rw [hstep]
      exact iff_of_true rfl rfl
    · rw [hstep]
    · rw [hstep, held_open hfd hpai, held_closed rfl rfl]
      exact List.Perm.refl _

/-- Opening a closed socket: the list of addresses is lost when there is no descriptor. -/
theorem accounts_open (hfd : sock.fd = -1) (h : Paired sock) (answer : OpenAnswer) :
    ∃ lost, Accounts sock (.open answer) lost := by
  have hpai : sock.pai = none := h.mp hfd
  by_cases htype : sock.params.socktype = SOCK_STREAM
  · by_cases hinfo : answer.getaddrinfo = 0
    · by_cases hsocket : answer.socket = -1
      · have hstep : socket_step sock (.open answer) =
            (sock, [.acquired (.addrinfo answer.res)]) := by
          simp [socket_step, TecSocket_open, TecSocket_open_entries, htype, hinfo, hsocket]
        refine ⟨[.addrinfo answer.res], ?_, ?_, ?_, ?_⟩
        · rw [hstep]
          exact h
        · rw [hstep]
        · rw [hstep, held_closed hfd hpai]
          exact List.Perm.refl _
        · exact iff_of_false (List.cons_ne_nil _ _) (not_not.mpr ⟨htype, hinfo, hsocket⟩)
      · have hstep : socket_step sock (.open answer) =
            ({ sock with fd := answer.socket, pai := some answer.res },
              [.acquired (.addrinfo answer.res), .acquired (.descriptor answer.socket)]) := by
          simp [socket_step, TecSocket_open, TecSocket_open_entries, htype, hinfo, hsocket]
        refine ⟨[], ?_, ?_, ?_, iff_of_true rfl (fun hleak => hsocket hleak.2.2)⟩
        · rw [hstep]
          exact iff_of_false hsocket (Option.some_ne_none _)
        · rw [hstep]
        · rw [hstep, held_closed hfd hpai, List.append_nil]
          apply (List.Perm.swap _ _ _).trans
          rw [held_open hsocket rfl]
          exact List.Perm.refl _
    · refine ⟨[], accounts_same h ?_ (fun hleak => hinfo hleak.2.1)⟩
      simp [socket_step, TecSocket_open, TecSocket_open_entries, htype, hinfo]
  · refine ⟨[], accounts_same h ?_ (fun hleak => htype hleak.1)⟩
    simp [socket_step, TecSocket_open, TecSocket_open_entries, htype]

/-- Every call, on the socket it may be made on. -/
theorem accounts_step {op : SocketOp} (h : Paired sock) (hopen : OpensClosed sock op) :
    ∃ lost, Accounts sock op lost := by
  cases op with
  | «open» answer => exact accounts_open hopen h answer
  | connect answer =>
    refine ⟨[], ?_⟩
    by_cases hclosed : sock.fd = -1 ∨ sock.pai = none
    · refine accounts_same h ?_ (fun hleak => hleak)
      simp [socket_step, TecSocket_connect, TecSocket_connect_entries, hclosed]
    · by_cases hrefused : answer.connect = -1
      · refine accounts_close h ?_ (fun hleak => hleak)
        simp [socket_step, TecSocket_connect, TecSocket_connect_entries, hclosed, hrefused]
      · refine accounts_same h ?_ (fun hleak => hleak)
        simp [socket_step, TecSocket_connect, TecSocket_connect_entries, hclosed, hrefused]
  | bind answer => exact ⟨[], accounts_same h rfl (fun hleak => hleak)⟩
  | listen answer => exact ⟨[], accounts_same h rfl (fun hleak => hleak)⟩
  | close => exact ⟨[], accounts_close h rfl (fun hleak => hleak)⟩

/-- A run adds up what its calls lose. -/
theorem accounts_run {ops : List SocketOp} : ∀ {sock : TecSocket}, Paired sock →
    SpecAllowed socket_step OpensClosed sock ops →
    ∃ lost, Paired (after sock ops) ∧
      Balanced (held sock) (entries sock ops) (held (after sock ops) ++ lost) ∧
      (lost = [] ↔ ∀ op ∈ ops, ¬ Leaks sock.params op) := by
  induction ops with
  | nil =>
    intro sock h _
    refine ⟨[], h, ?_, by simp⟩
    rw [List.append_nil]
    exact balanced_nil _
  | cons op ops ih =>
    rintro sock h ⟨hopen, hrest⟩
    obtain ⟨lost, hstep⟩ := accounts_step h hopen
    obtain ⟨lost', hpaired, hbalanced, hlost⟩ := ih hstep.paired hrest
    refine ⟨lost' ++ lost, hpaired, ?_, ?_⟩
    · rw [← List.append_assoc]
      exact hstep.balanced.append (hbalanced.frame lost)
    · rw [hstep.params] at hlost
      rw [List.append_eq_nil_iff, hlost, hstep.lost_iff, List.forall_mem_cons, and_comm]

/-- Everything is accounted for: descriptor and list are there together, and what was obtained
and not given back is what the socket holds. -/
structure Accounted (sock : TecSocket) (ops : List SocketOp) : Prop where
  paired : (after sock ops).fd = -1 ↔ (after sock ops).pai = none
  held : (acquired (entries sock ops)).Perm
    (released (entries sock ops) ++ held (after sock ops))

/-- This holds after every prefix of the calls, and a final `TecSocket_close` has given back
every resource as often as it was obtained. -/
def AccountedThroughout (sock : TecSocket) (ops : List SocketOp) : Prop :=
  (∀ before rest, ops = before ++ rest → Accounted sock before) ∧
    (acquired (entries sock (ops ++ [.close]))).Perm (released (entries sock (ops ++ [.close])))

theorem init_closed (h : TecSocket_init_ params = .ok sock) :
    sock.fd = -1 ∧ sock.pai = none ∧ sock.params = params := by
  obtain ⟨buf, _, hsock⟩ := bind_ok h
  cases Except.ok.inj hsock
  exact ⟨rfl, rfl, rfl⟩

/-- From a closed socket, a sequence of calls that loses nothing is accounted for. -/
theorem accounted_of_no_leak {ops : List SocketOp} (hfd : sock.fd = -1) (hpai : sock.pai = none)
    (hopen : SpecAllowed socket_step OpensClosed sock ops)
    (hleaks : ∀ op ∈ ops, ¬ Leaks sock.params op) : Accounted sock ops := by
  obtain ⟨lost, hpaired, hbalanced, hlost⟩ := accounts_run (iff_of_true hfd hpai) hopen
  rw [hlost.mpr hleaks, List.append_nil, held_closed hfd hpai] at hbalanced
  exact ⟨hpaired, hbalanced⟩

/-- After the last `TecSocket_close` nothing is held. -/
theorem held_after_close {ops : List SocketOp} (h : Paired (after sock ops)) :
    held (after sock (ops ++ [.close])) = [] := by
  have hlast : after sock (ops ++ [.close]) = TecSocket_close (after sock ops) := by
    induction ops generalizing sock with
    | nil => rfl
    | cons op ops ih => exact ih h
  rw [hlast]
  by_cases hfd : (after sock ops).fd = -1
  · rw [(close_closed hfd).1]
    exact held_closed hfd (h.mp hfd)
  · rw [TecSocket_close, if_pos hfd]
    rfl

/-- The resources of a socket are accounted for on every path exactly when no call of
`TecSocket_open` has its address resolved and gets no descriptor. -/
theorem resources_accounted_iff (params : TecSocketParams) (sock : TecSocket)
    (ops : List SocketOp) (h : TecSocket_init_ params = .ok sock)
    (hopen : SpecAllowed socket_step OpensClosed sock ops) :
    AccountedThroughout sock ops ↔ ∀ op ∈ ops, ¬ Leaks params op := by
  obtain ⟨hfd, hpai, rfl⟩ := init_closed h
  constructor
  · rintro ⟨hall, _⟩
    obtain ⟨lost, _, hbalanced, hlost⟩ := accounts_run (iff_of_true hfd hpai) hopen
    rw [held_closed hfd hpai] at hbalanced
    exact hlost.mp (hbalanced.lost_nil.mpr (hall ops [] (List.append_nil ops).symm).held)
  · intro hleaks
    refine ⟨?_, ?_⟩
    · rintro before rest rfl
      refine accounted_of_no_leak hfd hpai (specAllowed_append.mp hopen).1 ?_
      exact fun op hop => hleaks op (List.mem_append_left rest hop)
    · have hclosed : SpecAllowed socket_step OpensClosed sock (ops ++ [.close]) :=
        specAllowed_append.mpr ⟨hopen, trivial, trivial⟩
      have hnone : ∀ op ∈ ops ++ [.close], ¬ Leaks sock.params op := by
        intro op hop
        rcases List.mem_append.mp hop with hop | hop
        · exact hleaks op hop
        · rw [List.mem_singleton.mp hop]
          exact fun hleak => hleak
      have hheld := (accounted_of_no_leak hfd hpai hclosed hnone).held
      have hpaired := (accounted_of_no_leak hfd hpai hopen hleaks).paired
      rwa [held_after_close hpaired, List.append_nil] at hheld

/-- Refused, opened again, and closed. -/
theorem resources_accounted_retry :
    AccountedThroughout ⟨-1, none, ⟨none, 0, 0, 0, 1024⟩, ⟨SOCK_STREAM, 1024⟩⟩
        [.open ⟨0, 1, 3, 0⟩, .connect ⟨-1, 0, 0, 0⟩, .open ⟨0, 2, 3, 0⟩, .close] ↔
      ∀ op ∈ [.open ⟨0, 1, 3, 0⟩, .connect ⟨-1, 0, 0, 0⟩, .open ⟨0, 2, 3, 0⟩, .close],
        ¬ Leaks ⟨SOCK_STREAM, 1024⟩ op :=
  resources_accounted_iff ⟨SOCK_STREAM, 1024⟩ _ _ rfl ⟨rfl, trivial, rfl, trivial, trivial⟩

/-- The address is resolved, and there is no descriptor left. -/
theorem addrinfo_leaks :
    ¬ ∀ (params : TecSocketParams) (sock : TecSocket) (ops : List SocketOp),
      TecSocket_init_ params = .ok sock → SpecAllowed socket_step OpensClosed sock ops →
      AccountedThroughout sock ops := by
  intro h
  have hall := h ⟨SOCK_STREAM, 1024⟩ ⟨-1, none, ⟨none, 0, 0, 0, 1024⟩, ⟨SOCK_STREAM, 1024⟩⟩
    [.open ⟨0, 1, -1, 24⟩] rfl ⟨rfl, trivial⟩
  have hheld := (hall.1 [.open ⟨0, 1, -1, 24⟩] [] rfl).held
  exact absurd hheld.length_eq (by decide)

end Tecc.Socket
