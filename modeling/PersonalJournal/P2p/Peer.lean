import PersonalJournal.Lib.Descriptors
import PersonalJournal.Lib.Transition

namespace PersonalJournal.Peer
open Descriptors Transition

-- The listener's and the server connection's descriptors are the event loop's, whether it
-- closes them by itself or through libevent.
inductive Component where
  | listening
  | connection
  | user
  | punch (i : Nat)
  | other
deriving DecidableEq

def safeClose (l : Ledger Component) (c : Component) (sock : Handle) : Ledger Component :=
  if 0 < sock.fd then l.close c sock else l

-- connect_peer, and what its callers punch_hole and process_punch_hole_cmd_cb do with the socket.
inductive Dialing where
  | next (retry : Nat)
  | opened (retry : Nat) (sock : Handle)
  | connected (sock : Handle)
  | over

inductive Dial where
  | socket (n : Option Nat)
  -- set_sock_opt, bind and connect
  | connect (done : Bool)
  -- send or recv, and SAFE_CLOSE
  | exchange

-- while (--retry)
def again (retry : Nat) : Dialing := if retry - 1 = 0 then .over else .next (retry - 1)

def connect_peer : Dialing := again 10

def dial (l : Ledger Component) (c : Component) : Dialing → Dial → Option (Ledger Component × Dialing)
  | .next retry,.socket none => some (l,again retry)
  | .next retry,.socket (some n) => (l.socket c n).map fun made => (made.1,.opened retry made.2)
  | .opened _ sock,.connect true => some (l,.connected sock)
  | .opened retry sock,.connect false => some (safeClose l c sock,again retry)
  | .connected sock,.exchange => some (safeClose l c sock,.over)
  | _,_ => none

-- Where main is.
inductive Pc where
  | listen_local
  | listenOptions (sock : Handle)
  | connect_server
  | connecting (sock : Handle)
  | add_ping_timer
  | add_user_timer
  | dispatch
  -- behind bufferevent_free
  | conn_event_cb (conn_sock : Handle)
  | user_cb (dialing : Dialing)
  | uninit
  | closeServer
  | closeListener
  | exited

structure State where
  ledger : Ledger Component
  pc : Pc
  device_sn : UInt64
  -- none is -1 in the socket fields, and NULL in the others
  conn_server_sock : Option Handle
  pping_bev : Option Handle
  freed : Bool
  listen_lcoal_sock : Option Handle
  listener : Option Handle
  -- added, and has not fired
  pping_event : Bool
  puser_event : Bool
  threads : List Dialing

inductive Request where
  | noMemory
  | unanswered
  | answered
deriving DecidableEq

inductive Action where
  -- evconnlistener_new_bind: the number of its socket
  | bind (n : Option Nat)
  | options (done : Bool)
  | socket (n : Option Nat)
  -- set_sock_opt, bind, connect and bufferevent_socket_new
  | connect (done : Bool)
  | addEvent (done : Bool)
  | accept (n : Nat)
  | ping (memory : Bool)
  | user (request : Request)
  | dialUser (event : Dial)
  -- data of the server: whether it is a PUNCH_HOLE whose thread is created
  | read (punch : Bool)
  | event
  | safeClose
  | leave
  -- the three parts of uninit
  | free
  | closeServer
  | closeListener
  | punch (i : Nat) (event : Dial)

def back : Dialing → Pc
  | .over => .dispatch
  | dialing => .user_cb dialing

-- close(sock) and -1 for a field of the client
def closeField (l : Ledger Component) (c : Component) : Option Handle → Ledger Component × Option Handle
  | some sock => if 0 < sock.fd then (l.close c sock,none) else (l,some sock)
  | none => (l,none)

-- A timer fires once: neither is EV_PERSIST. An accepted socket is only logged.
def step (s : State) (action : Action) : Option State :=
  match s.pc,action with
  | .exited,_ => none
  | _,.punch i event => do
      let d ← s.threads[i]?
      let (l,d) ← dial s.ledger (.punch i) d event
      return {s with ledger := l,threads := s.threads.set i d}
  | .listen_local,.bind none => some {s with pc := .uninit}
  | .listen_local,.bind (some n) =>
      (s.ledger.socket .listening n).map fun made => {s with ledger := made.1,pc := .listenOptions made.2}
  | .listenOptions sock,.options true =>
      some {s with listen_lcoal_sock := some sock,listener := some sock,pc := .connect_server}
  | .listenOptions sock,.options false => some {s with ledger := s.ledger.close .listening sock,pc := .uninit}
  | .connect_server,.socket none => some {s with pc := .uninit}
  | .connect_server,.socket (some n) =>
      (s.ledger.socket .connection n).map fun made => {s with ledger := made.1,pc := .connecting made.2}
  | .connecting sock,.connect true =>
      some {s with conn_server_sock := some sock,pping_bev := some sock,pc := .add_ping_timer}
  | .connecting sock,.connect false => some {s with ledger := Peer.safeClose s.ledger .connection sock,pc := .uninit}
  | .add_ping_timer,.addEvent true =>
      some {s with pping_event := true,pc := if s.device_sn ≠ 2222 then .add_user_timer else .dispatch}
  | .add_user_timer,.addEvent true => some {s with puser_event := true,pc := .dispatch}
  | .add_ping_timer,.addEvent false => some {s with pc := .uninit}
  | .add_user_timer,.addEvent false => some {s with pc := .uninit}
  | .dispatch,.accept n => (s.ledger.socket .other n).map fun made => {s with ledger := made.1}
  | .dispatch,.ping _ => if s.pping_event then some {s with pping_event := false} else none
  | .dispatch,.user request =>
      if s.puser_event then
        some {s with puser_event := false,pc := if request = .answered then back connect_peer else .dispatch}
      else none
  | .user_cb dialing,.dialUser event =>
      (dial s.ledger .user dialing event).map fun made => {s with ledger := made.1,pc := back made.2}
  | .dispatch,.read punch =>
      if s.freed then none else some (if punch then {s with threads := s.threads ++ [connect_peer]} else s)
  | .dispatch,.event =>
      if s.freed then none
      else s.pping_bev.map fun sock =>
        {s with ledger := s.ledger.close .connection sock,freed := true,pc := .conn_event_cb sock}
  | .conn_event_cb conn_sock,.safeClose =>
      some {s with ledger := Peer.safeClose s.ledger .connection conn_sock,pc := .dispatch}
  | .dispatch,.leave => some {s with pc := .uninit}
  | .uninit,.free => match s.listener with
      | some sock => some {s with ledger := s.ledger.close .listening sock,listener := none,pc := .closeServer}
      | none => some {s with pc := .closeServer}
  | .closeServer,.closeServer =>
      let (l,sock) := closeField s.ledger .connection s.conn_server_sock
      some {s with ledger := l,conn_server_sock := sock,pc := .closeListener}
  | .closeListener,.closeListener =>
      let (l,sock) := closeField s.ledger .listening s.listen_lcoal_sock
      some {s with ledger := l,listen_lcoal_sock := sock,pc := .exited}
  | _,_ => none

-- main behind init, whatever is open by then.
def initial (l : Ledger Component) (device_sn : UInt64) : State :=
  ⟨{l with closings := []},.listen_local,device_sn,none,none,false,none,none,false,false,[]⟩

-- ping_cb writes to pping_bev, user_cb sends on conn_server_sock.
def uses : Action → Bool
  | .ping memory => memory
  | .user request => request ≠ .noMemory
  | _ => false

-- Every close is of an open number, by the component that it was opened for and still has
-- it open, and the first one of this opening. What is torn down is not used.
structure Sound (s : State) (action : Action) (t : State) : Prop where
  owned : ∀ c sock, t.ledger.closings = (c,sock) :: s.ledger.closings → Held s.ledger c sock
  once : ∀ c sock, t.ledger.closings = (c,sock) :: s.ledger.closings → (c,sock) ∉ s.ledger.closings
  used : uses action = true → s.freed = false

-- Neither conn_event_cb nor uninit comes to a close behind libevent's own, and no timer
-- fires behind the end of the connection.
structure Avoids (s : State) (action : Action) (_ : State) : Prop where
  event : action = .safeClose → ∀ sock, s.pc = .conn_event_cb sock → sock.fd = 0
  server : action = .closeServer → s.freed = true → ∀ sock, s.conn_server_sock = some sock → sock.fd = 0
  listening : action = .closeListener → ∀ sock, s.listen_lcoal_sock = some sock → sock.fd = 0
  timers : uses action = true → s.freed = false

-- What one call of dial did.
inductive Dials (l : Ledger Component) (c : Component) : Dialing → Dial → Ledger Component → Dialing → Prop where
  | refused : Dials l c (.next retry) (.socket none) l (again retry)
  | opened : l.socket c n = some (m,h) → Dials l c (.next retry) (.socket (some n)) m (.opened retry h)
  | connected : Dials l c (.opened retry h) (.connect true) l (.connected h)
  | failed : Dials l c (.opened retry h) (.connect false) (safeClose l c h) (again retry)
  | done : Dials l c (.connected h) .exchange (safeClose l c h) .over

theorem dial_dials (dialed : dial l c d event = some (m,e)) : Dials l c d event m e := by
  unfold dial at dialed
  split at dialed
  · cases dialed
    exact .refused
  · obtain ⟨⟨l,h⟩,made,same⟩ := Option.map_eq_some_iff.mp dialed
    cases same
    exact .opened made
  · cases dialed
    exact .connected
  · cases dialed
    exact .failed
  · cases dialed
    exact .done
  · cases dialed

-- What one step did, by the place of main it was taken at.
inductive Moves (s : State) : Action → State → Prop where
  | punch : s.threads[i]? = some d → Dials s.ledger (.punch i) d event m e →
      Moves s (.punch i event) {s with ledger := m,threads := s.threads.set i e}
  | unbound : s.pc = .listen_local → Moves s (.bind none) {s with pc := .uninit}
  | bound : s.pc = .listen_local → s.ledger.socket .listening n = some (m,h) →
      Moves s (.bind (some n)) {s with ledger := m,pc := .listenOptions h}
  | listens : s.pc = .listenOptions h →
      Moves s (.options true) {s with listen_lcoal_sock := some h,listener := some h,pc := .connect_server}
  | unlistened : s.pc = .listenOptions h →
      Moves s (.options false) {s with ledger := s.ledger.close .listening h,pc := .uninit}
  | unopened : s.pc = .connect_server → Moves s (.socket none) {s with pc := .uninit}
  | opened : s.pc = .connect_server → s.ledger.socket .connection n = some (m,h) →
      Moves s (.socket (some n)) {s with ledger := m,pc := .connecting h}
  | connected : s.pc = .connecting h →
      Moves s (.connect true) {s with conn_server_sock := some h,pping_bev := some h,pc := .add_ping_timer}
  | unconnected : s.pc = .connecting h →
      Moves s (.connect false) {s with ledger := Peer.safeClose s.ledger .connection h,pc := .uninit}
  | timed (pc : Pc) : s.pc = .add_ping_timer → pc = .add_user_timer ∨ pc = .dispatch →
      Moves s (.addEvent true) {s with pping_event := true,pc := pc}
  | entered : s.pc = .add_user_timer → Moves s (.addEvent true) {s with puser_event := true,pc := .dispatch}
  | untimed : s.pc = .add_ping_timer ∨ s.pc = .add_user_timer → Moves s (.addEvent false) {s with pc := .uninit}
  | accepted : s.pc = .dispatch → s.ledger.socket .other n = some (m,h) → Moves s (.accept n) {s with ledger := m}
  | pinged : s.pc = .dispatch → Moves s (.ping memory) {s with pping_event := false}
  | requested : s.pc = .dispatch → Moves s (.user request) {s with puser_event := false,pc := .dispatch}
  | answered : s.pc = .dispatch → Moves s (.user .answered) {s with puser_event := false,pc := back connect_peer}
  | dialed : s.pc = .user_cb d → Dials s.ledger .user d event m e →
      Moves s (.dialUser event) {s with ledger := m,pc := back e}
  | read : s.pc = .dispatch → Moves s (.read false) s
  | punched : s.pc = .dispatch → Moves s (.read true) {s with threads := s.threads ++ [connect_peer]}
  | freed : s.pc = .dispatch → s.freed = false → s.pping_bev = some h →
      Moves s .event {s with ledger := s.ledger.close .connection h,freed := true,pc := .conn_event_cb h}
  | closed : s.pc = .conn_event_cb h →
      Moves s .safeClose {s with ledger := Peer.safeClose s.ledger .connection h,pc := .dispatch}
  | left : s.pc = .dispatch → Moves s .leave {s with pc := .uninit}
  | silenced : s.pc = .uninit → s.listener = some h →
      Moves s .free {s with ledger := s.ledger.close .listening h,listener := none,pc := .closeServer}
  | unlistening : s.pc = .uninit → s.listener = none → Moves s .free {s with pc := .closeServer}
  | hungUp : s.pc = .closeServer → closeField s.ledger .connection s.conn_server_sock = (m,field) →
      Moves s .closeServer {s with ledger := m,conn_server_sock := field,pc := .closeListener}
  | finished : s.pc = .closeListener → closeField s.ledger .listening s.listen_lcoal_sock = (m,field) →
      Moves s .closeListener {s with ledger := m,listen_lcoal_sock := field,pc := .exited}

theorem step_moves (taken : step s action = some t) : Moves s action t := by
  unfold step at taken
  split at taken
  · cases taken
  · rename_i i event _
    simp only [Option.bind_eq_bind,Option.bind_eq_some_iff] at taken
    obtain ⟨d,found,⟨l,e⟩,dialed,same⟩ := taken
    cases same
    exact .punch found (dial_dials dialed)
  · rename_i place
    cases taken
    exact .unbound place
  · rename_i place
    obtain ⟨⟨l,h⟩,made,same⟩ := Option.map_eq_some_iff.mp taken
    cases same
    exact .bound place made
  · rename_i place
    cases taken
    exact .listens place
  · rename_i place
    cases taken
    exact .unlistened place
  · rename_i place
    cases taken
    exact .unopened place
  · rename_i place
    obtain ⟨⟨l,h⟩,made,same⟩ := Option.map_eq_some_iff.mp taken
    cases same
    exact .opened place made
  · rename_i place
    cases taken
    exact .connected place
  · rename_i place
    cases taken
    exact .unconnected place
  · rename_i place
    cases taken
    exact .timed _ place (by split <;> simp)
  · rename_i place
    cases taken
    exact .entered place
  · rename_i place
    cases taken
    exact .untimed (.inl place)
  · rename_i place
    cases taken
    exact .untimed (.inr place)
  · rename_i place
    obtain ⟨⟨l,h⟩,made,same⟩ := Option.map_eq_some_iff.mp taken
    cases same
    exact .accepted place made
  · rename_i place
    split at taken
    · cases taken
      exact .pinged place
    · cases taken
  · rename_i request place
    split at taken
    · cases taken
      split
      · rename_i same
        rw [same]
        exact .answered place
      · exact .requested place
    · cases taken
  · rename_i place
    obtain ⟨⟨l,e⟩,dialed,same⟩ := Option.map_eq_some_iff.mp taken
    cases same
    exact .dialed place (dial_dials dialed)
  · rename_i punch place
    split at taken
    · cases taken
    · cases taken
      split
      · rename_i yes
        rw [yes]
        exact .punched place
      · rename_i no
        rw [Bool.not_eq_true] at no
        rw [no]
        exact .read place
  · rename_i place
    split at taken
    · cases taken
    · rename_i alive
      obtain ⟨h,bev,same⟩ := Option.map_eq_some_iff.mp taken
      cases same
      exact .freed place (by simpa using alive) bev
  · rename_i place
    cases taken
    exact .closed place
  · rename_i place
    cases taken
    exact .left place
  · rename_i place
    split at taken
    · rename_i listening
      cases taken
      exact .silenced place listening
    · rename_i none
      cases taken
      exact .unlistening place none
  · rename_i place
    cases taken
    exact .hungUp place rfl
  · rename_i place
    cases taken
    exact .finished place rfl
  · cases taken

end PersonalJournal.Peer
