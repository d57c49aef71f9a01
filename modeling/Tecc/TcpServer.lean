import Tecc.SocketResources
import Tecc.ServiceWorker

/-! The server of tecc_tcp_server.c as a service: the thread in `start_` and `poll_`, and the thread
in `shutdown_`. What the system calls answer is left open. -/
namespace Tecc.TcpServer

open Socket ServiceWorker

def TECC_LOG_SVR_CONNECTING : Int := 29001
def TECC_LOG_SVR_CONN_OK : Int := 29002
def TECC_LOG_SVR_CONN_FAILED : Int := 29003
def TECC_LOG_SVR_SHUTDOWN : Int := 29004

/-- What is set up before the server runs. -/
structure Setup where
  socket_params : TecSocketParams
  /-- `log` is not NULL. -/
  log : Bool
  /-- `thread_pool` is not NULL. -/
  thread_pool : Bool
  /-- What `accept` may return, while the descriptor of the listening socket is open and once it
  is closed. -/
  accepts : Bool → Int → Prop

/-- The position of the thread in `start_` and in the `poll_` that it calls. -/
inductive StartPc where
  | log_connecting
  | open
  | set_options
  | bind
  | listen
  | error (err : Int)
  | log_failed
  | set_failed
  | started_failed
  | init_buffer
  | log_ok
  | started
  | running
  | accept
  | accepting
  | dispatch (fd : Int)
  | dispatching
  | set_stopped
  | return
  | returned
deriving DecidableEq

/-- The position of the thread in `shutdown_`. -/
inductive ShutdownPc where
  | store_running
  | close
  | clear
  | wait_polling
  | set_stopped
  | log
  | return
  | returned
deriving DecidableEq

structure TecTCPServer where
  sock : TecSocket
  /-- The descriptor of the listening socket has been closed. -/
  closed : Bool
  running : Bool
  sig_polling_stopped : Bool
  start : StartPc
  shutdown : ShutdownPc

inductive ServerAct where
  | log (status : Int)
  | accept
  | accepted (fd : Int)
  | enqueue (fd : Int)
  | dispatch_client (fd : Int)
  | other

/-- `if (self->log) { self->log(status, ...); }` -/
def log_act (setup : Setup) (status : Int) : ServerAct :=
  if setup.log then .log status else .other

/-- `TecTCPServer_init`; the buffers of the server and of its socket are not looked at. -/
def Initial (setup : Setup) (self : TecTCPServer) : Prop :=
  TecSocket_init_ setup.socket_params = .ok self.sock ∧ self.closed = false ∧
    self.running = true ∧ self.sig_polling_stopped = false ∧ self.start = .log_connecting ∧
    self.shutdown = .store_running

inductive start_ (setup : Setup) : TecTCPServer → StartAct ServerAct → TecTCPServer → Prop
  | log_connecting {self : TecTCPServer} (hp : self.start = .log_connecting) :
      start_ setup self (.step (log_act setup TECC_LOG_SVR_CONNECTING))
        { self with start := .open }
  | open {self : TecTCPServer} {answer : OpenAnswer} (hp : self.start = .open) :
      start_ setup self (.step .other)
        { self with
          sock := (TecSocket_open answer self.sock).1
          start :=
            if (TecSocket_open answer self.sock).2 = 0 then .set_options
            else .error (TecSocket_open answer self.sock).2 }
  /-- The result of `TecSocket_set_options` is not looked at. -/
  | set_options {self : TecTCPServer} (hp : self.start = .set_options) :
      start_ setup self (.step .other) { self with start := .bind }
  | bind {self : TecTCPServer} {answer : BindAnswer} (hp : self.start = .bind) :
      start_ setup self (.step .other)
        { self with
          start :=
            if TecSocket_bind answer self.sock = 0 then .listen
            else .error (TecSocket_bind answer self.sock) }
  | listen {self : TecTCPServer} {answer : BindAnswer} (hp : self.start = .listen) :
      start_ setup self (.step .other)
        { self with start := .error (TecSocket_listen answer self.sock) }
  /-- `*error = err; if (err)` -/
  | error {self : TecTCPServer} {err : Int} (hp : self.start = .error err) :
      start_ setup self (.error err)
        { self with start := if err ≠ 0 then .log_failed else .init_buffer }
  | log_failed {self : TecTCPServer} (hp : self.start = .log_failed) :
      start_ setup self (.step (log_act setup TECC_LOG_SVR_CONN_FAILED))
        { self with start := .set_failed }
  | set_failed {self : TecTCPServer} (hp : self.start = .set_failed) :
      start_ setup self (.step .other)
        { self with sig_polling_stopped := true, start := .started_failed }
  | started_failed {self : TecTCPServer} (hp : self.start = .started_failed) :
      start_ setup self .sig_started { self with start := .return }
  | init_buffer {self : TecTCPServer} (hp : self.start = .init_buffer) :
      start_ setup self (.step .other) { self with start := .log_ok }
  | log_ok {self : TecTCPServer} (hp : self.start = .log_ok) :
      start_ setup self (.step (log_act setup TECC_LOG_SVR_CONN_OK))
        { self with start := .started }
  | started {self : TecTCPServer} (hp : self.start = .started) :
      start_ setup self .sig_started { self with start := .running }
  /-- `while (atomic_load(&self->running))` -/
  | running {self : TecTCPServer} (hp : self.start = .running) :
      start_ setup self (.step .other)
        { self with start := if self.running then .accept else .set_stopped }
  | accept {self : TecTCPServer} (hp : self.start = .accept) :
      start_ setup self (.step .accept) { self with start := .accepting }
  /-- `accept` returns, and the socket that it has made is tested. -/
  | accepting {self : TecTCPServer} {fd : Int} (hp : self.start = .accepting)
      (hfd : setup.accepts self.closed fd) :
      start_ setup self (.step (.accepted fd))
        { self with start := if fd ≠ -1 then .dispatch fd else .running }
  | dispatch {self : TecTCPServer} {fd : Int} (hp : self.start = .dispatch fd) :
      start_ setup self (.step (if setup.thread_pool then .enqueue fd else .dispatch_client fd))
        { self with start := .dispatching }
  /-- `TecThrPool_enqueue` or `dispatch_client` returns. -/
  | dispatching {self : TecTCPServer} (hp : self.start = .dispatching) :
      start_ setup self (.step .other) { self with start := .running }
  | set_stopped {self : TecTCPServer} (hp : self.start = .set_stopped) :
      start_ setup self (.step .other)
        { self with sig_polling_stopped := true, start := .return }
  | return {self : TecTCPServer} (hp : self.start = .return) :
      start_ setup self .return { self with start := .returned }

inductive shutdown_ (setup : Setup) :
    TecTCPServer → ShutdownAct ServerAct → TecTCPServer → Prop
  | store_running {self : TecTCPServer} (hp : self.shutdown = .store_running) :
      shutdown_ setup self (.step .other) { self with running := false, shutdown := .close }
  /-- `TecSocket_close` shuts the descriptor down and closes it. -/
  | close {self : TecTCPServer} (hp : self.shutdown = .close) (hfd : self.sock.fd ≠ -1) :
      shutdown_ setup self (.step .other) { self with closed := true, shutdown := .clear }
  | not_open {self : TecTCPServer} (hp : self.shutdown = .close) (hfd : self.sock.fd = -1) :
      shutdown_ setup self (.step .other) { self with shutdown := .wait_polling }
  | clear {self : TecTCPServer} (hp : self.shutdown = .clear) :
      shutdown_ setup self (.step .other)
        { self with sock := TecSocket_close self.sock, shutdown := .wait_polling }
  | wait_polling {self : TecTCPServer} (hp : self.shutdown = .wait_polling)
      (hsig : self.sig_polling_stopped = true) :
      shutdown_ setup self (.step .other) { self with shutdown := .set_stopped }
  | set_stopped {self : TecTCPServer} (hp : self.shutdown = .set_stopped) :
      shutdown_ setup self .sig_stopped { self with shutdown := .log }
  | log {self : TecTCPServer} (hp : self.shutdown = .log) :
      shutdown_ setup self (.step (log_act setup TECC_LOG_SVR_SHUTDOWN))
        { self with shutdown := .return }
  | return {self : TecTCPServer} (hp : self.shutdown = .return) :
      shutdown_ setup self .return { self with shutdown := .returned }

def TecTCPServer_init (setup : Setup) : Service TecTCPServer ServerAct where
  Init := Initial setup
  start := start_ setup
  shutdown := shutdown_ setup

end Tecc.TcpServer
