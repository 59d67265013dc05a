import PersonalJournal.P2p.Server

namespace PersonalJournal.Transport
open Registry Framing Server Transition

-- The server as its clients mean it: whole messages instead of octets, and no connections.
structure Book (β : Type) where
  devices : DeviceList β
  stopped : Bool

structure Request (β : Type) where
  bev : β
  client : SockaddrIn
  m : Msg
  io : Io

variable {β : Type}

def Book.serve (b : Book β) (r : Request β) : Book β × List (β × Msg) :=
  match r.m.head.cmd,r.m.data with
  | .ping,.ping ping => ({b with devices := (processPingCmd r.io b.devices r.bev ping r.client).2},[])
  | .queryDeviceInfoRequest,.deviceInfo info =>
      match processQueryDeviceInfoCmd r.io b.devices r.bev r.m.head.src_device_sn info.device_sn with
      | .aborted => ({b with stopped := true},[])
      | .returned _ writes => (b,writes)
  | _,_ => (b,[])

def Book.step (b : Book β) (r : Request β) : Option (Book β) := if b.stopped then none else some (b.serve r).1

def Book.written (b : Book β) : List (Request β) → List (β × Msg)
  | [] => []
  | r :: rest => (b.serve r).2 ++ (b.serve r).1.written rest

def book (s : Server.State β) : Book β := ⟨s.devices,s.stopped⟩

-- The message that a callback of the server acts on.
def request (s : Server.State β) : Action β → Option (Request β)
  | .read bev seg io => match s.connections bev with
      | none => none
      | some c => (Framing.connRead seg.request seg.body (c.input ++ seg.octets)).1.map (⟨bev,c.client,·,io⟩)
  | _ => none

-- conn_read_cb acts on what it has read as the abstract server does.
theorem serve_book (s : Server.State β) (io : Io) (bev : β) (client : SockaddrIn) (m : Msg) :
    book (s.serve io bev client m).1 = ((book s).serve ⟨bev,client,m,io⟩).1 ∧
      (s.serve io bev client m).2 = ((book s).serve ⟨bev,client,m,io⟩).2 := by
  unfold State.serve Book.serve
  generalize m.head.cmd = cmd
  generalize m.data = data
  cases cmd with
  | queryDeviceInfoRequest =>
      cases data with
      | deviceInfo info =>
          simp only [State.query,book]
          cases processQueryDeviceInfoCmd io s.devices bev m.head.src_device_sn info.device_sn <;> exact ⟨rfl,rfl⟩
      | _ => exact ⟨rfl,rfl⟩
  | ping => cases data <;> exact ⟨rfl,rfl⟩
  | _ => exact ⟨rfl,rfl⟩

section Requests
variable [DecidableEq β] {s t : Server.State β} {actions : List (Action β)} {bev : β} {c : Connection}

def requests (s : Server.State β) : List (Action β) → List (Request β)
  | [] => []
  | action :: rest => (request s action).toList ++ match Server.step s action with
      | none => []
      | some t => requests t rest

def written (s : Server.State β) : List (Action β) → List (β × Msg)
  | [] => []
  | action :: rest => s.writes action ++ match Server.step s action with
      | none => []
      | some t => written t rest

-- What was acted on for one connection, with the address it was taken to come from.
def heard (bev : β) (requests : List (Request β)) : List (SockaddrIn × Msg) :=
  (requests.filter (·.bev = bev)).map (fun r => (r.client,r.m))

def segment (bev : β) : Action β → Option Segment
  | .read b seg _ => if b = bev then some seg else none
  | _ => none

def segments (bev : β) (actions : List (Action β)) : List Segment := actions.filterMap (segment bev)

-- A callback acts on one message or on none.
inductive Acts (s : Server.State β) (action : Action β) (t : Server.State β) : Prop where
  | idle : request s action = none → book t = book s → s.writes action = [] → Acts s action t
  | acts : request s action = some r → book t = ((book s).serve r).1 → s.writes action = ((book s).serve r).2 →
      Acts s action t

theorem step_acts (taken : Server.step s action = some t) : Acts s action t := by
  cases step_moves taken with
  | accepted => exact .idle rfl rfl rfl
  | declined => exact .idle rfl rfl rfl
  | closed here => exact .idle rfl rfl rfl
  | @read bev c seg io here =>
      cases got : (Framing.connRead seg.request seg.body (c.input ++ seg.octets)).1 with
      | none =>
          refine .idle ?_ ?_ ?_
          · simp only [request,here,got,Option.map_none]
          · simp only [State.connRead,got]
            rfl
          · simp only [State.writes,here,State.connRead,got]
      | some m =>
          have served := serve_book (s.hold bev (some {c with
            input := (Framing.connRead seg.request seg.body (c.input ++ seg.octets)).2})) io bev c.client m
          refine .acts (r := ⟨bev,c.client,m,io⟩) ?_ ?_ ?_
          · simp only [request,here,got,Option.map_some]
          · simp only [State.connRead,got]
            exact served.1
          · simp only [State.writes,here,State.connRead,got]
            exact served.2

theorem step_running (taken : Server.step s action = some t) : s.stopped = false := by
  cases running : s.stopped with
  | false => rfl
  | true => cases action <;> simp [Server.step,running] at taken

-- The octets of all connections, however they come, make one run over messages.
theorem run_book (path : Sequence Server.step s actions t) :
    Sequence Book.step (book s) (requests s actions) (book t) ∧ written s actions = (book s).written (requests s actions) := by
  induction path with
  | nil => exact ⟨.nil,rfl⟩
  | @cons s action middle rest t taken later ih =>
      obtain ⟨onward,same⟩ := ih
      unfold requests written
      simp only [taken]
      cases step_acts taken with
      | idle none still silent =>
          rw [none,silent,← still]
          exact ⟨onward,same⟩
      | @acts r one moved wrote =>
          have running : ¬ (book s).stopped = true := by
            rw [show (book s).stopped = s.stopped from rfl,step_running taken]
            exact Bool.false_ne_true
          rw [one,wrote,same,moved]
          refine ⟨.cons (if_neg running) ?_,rfl⟩
          rw [← moved]
          exact onward

-- What a callback does to one open connection.
inductive Touches (s : Server.State β) (bev : β) (c : Connection) (t : Server.State β) : Action β → Prop where
  | own : t.connections bev = some {c with input := (Framing.connRead seg.request seg.body (c.input ++ seg.octets)).2} →
      Touches s bev c t (.read bev seg io)
  | other : segment bev action = none → (∀ r, request s action = some r → r.bev ≠ bev) → t.connections bev = some c →
      Touches s bev c t action

theorem step_touches (taken : Server.step s action = some t) (here : s.connections bev = some c)
    (lasts : action ≠ .event bev) : Touches s bev c t action := by
  cases action with
  | accept new client granted created =>
      simp only [Server.step] at taken
      split at taken
      · cases taken
      · rename_i free
        have apart : bev ≠ new := by
          rintro rfl
          exact free (.inr (by rw [here]; rfl))
        cases Option.some.inj taken
        refine .other rfl (fun r asked => by simp [request] at asked) ?_
        split
        · exact (Function.update_of_ne apart _ _).trans here
        · exact here
  | event other =>
      simp only [Server.step] at taken
      split at taken
      · cases taken
      · obtain ⟨_,_,rfl⟩ := Option.map_eq_some_iff.mp taken
        have apart : bev ≠ other := fun same => lasts (by rw [same])
        exact .other rfl (fun r asked => by simp [request] at asked) ((Function.update_of_ne apart _ _).trans here)
  | read other seg io =>
      simp only [Server.step] at taken
      split at taken
      · cases taken
      · obtain ⟨c',there,rfl⟩ := Option.map_eq_some_iff.mp taken
        have kept : (s.connRead other c' seg io).1.connections = (s.hold other (some {c' with
            input := (Framing.connRead seg.request seg.body (c'.input ++ seg.octets)).2})).connections := by
          unfold State.connRead
          dsimp only
          split
          · rfl
          · exact (serve_kept _ io other c'.client _).1
        by_cases same : other = bev
        · subst same
          cases here.symm.trans there
          refine .own ?_
          rw [kept]
          exact Function.update_self ..
        · refine .other (if_neg same) (fun r asked => ?_) ?_
          · simp only [request,there] at asked
            obtain ⟨m,_,rfl⟩ := Option.map_eq_some_iff.mp asked
            exact same
          · rw [kept]
            exact (Function.update_of_ne (Ne.symm same) _ _).trans here

-- The callbacks of the other connections in between do not matter.
theorem heard_handled (path : Sequence Server.step s actions t) (here : s.connections bev = some c)
    (lasts : .event bev ∉ actions) :
    heard bev (requests s actions) = (handled c.input (segments bev actions)).map (fun m => (c.client,m)) := by
  induction path generalizing c with
  | nil => rfl
  | @cons s action middle rest t taken later ih =>
      obtain ⟨first,others⟩ := not_or.mp (fun either => lasts (List.mem_cons.mpr either))
      have split : heard bev (requests s (action :: rest)) =
          heard bev (request s action).toList ++ heard bev (requests middle rest) := by
        simp only [requests,taken,heard,List.filter_append,List.map_append]
      rw [split]
      cases step_touches taken here (fun same => first same.symm) with
      | @own seg io left =>
          rw [ih left others]
          simp only [segments,List.filterMap_cons,segment,if_true,handled_cons,List.map_append]
          congr 1
          simp only [request,here]
          cases (Framing.connRead seg.request seg.body (c.input ++ seg.octets)).1 with
          | none => rfl
          | some m => simp [heard]
      | other unread apart still =>
          rw [ih still others]
          have unheard : heard bev (request s action).toList = [] := by
            cases asked : request s action with
            | none => rfl
            | some r => simp [heard,apart r asked]
          rw [unheard,List.nil_append]
          simp only [segments,List.filterMap_cons,unread]

end Requests

-- Two clients at a time; the padding of the first one's PING comes behind the second one's.
def crossing : List (Action Nat) :=
  [.read 1 ⟨(wire ping1111).take 52,true,true⟩ .good,.accept 2 ⟨0x0a000002,5152⟩ true true,writtenBy 2 ping2222,
    .read 1 ⟨(wire ping1111).drop 52,true,true⟩ .good]

end PersonalJournal.Transport
