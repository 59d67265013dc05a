import PersonalJournal.P2p.Peer

namespace PersonalJournal.Peer
open Descriptors Transition

def Dialing.sock : Dialing → Option Handle
  | .opened _ sock => some sock
  | .connected sock => some sock
  | _ => none

def Pc.bound : Pc → Option Handle
  | .listenOptions sock => some sock
  | _ => none

def Pc.connected : Pc → Option Handle
  | .connecting sock => some sock
  | _ => none

def Pc.dialing : Pc → Dialing
  | .user_cb dialing => dialing
  | _ => .over

-- The descriptor that each component has still to close.
def holding (s : State) : Component → Option Handle
  | .listening => s.pc.bound.or s.listener
  | .connection => s.pc.connected.or (if s.freed then none else s.conn_server_sock)
  | .user => s.pc.dialing.sock
  | .punch i => s.threads[i]?.bind Dialing.sock
  | .other => none

-- Before listen_local has set its fields, before connect_server has, and behind evconnlistener_free.
def Pc.unlistened : Pc → Bool
  | .listen_local => true
  | .listenOptions _ => true
  | _ => false

def Pc.unconnected : Pc → Bool
  | .connect_server => true
  | .connecting _ => true
  | pc => pc.unlistened

def Pc.silenced : Pc → Bool
  | .closeServer => true
  | .closeListener => true
  | .exited => true
  | _ => false

-- How the fields go together, and which of them are behind a close already.
structure Wired (s : State) : Prop where
  unlistened : s.pc.unlistened = true → s.listener = none
  unconnected : s.pc.unconnected = true → s.conn_server_sock = none ∧ s.freed = false
  listens : s.pc.silenced = false → s.listen_lcoal_sock = s.listener
  talks : s.pc.silenced = false → s.pping_bev = s.conn_server_sock
  torn : ∀ h, s.pc = .conn_event_cb h → (.connection,h) ∈ s.ledger.closings
  freed : s.freed = true → ∀ h, s.conn_server_sock = some h → (.connection,h) ∈ s.ledger.closings
  silenced : s.pc.silenced = true → ∀ h, s.listen_lcoal_sock = some h → (.listening,h) ∈ s.ledger.closings

theorem initial_wired (l : Ledger Component) (device_sn : UInt64) : Wired (initial l device_sn) := by
  constructor <;> simp [initial,Pc.unlistened,Pc.unconnected,Pc.silenced]

@[simp] theorem again_sock (retry : Nat) : (again retry).sock = none := by
  unfold again
  split <;> rfl

@[simp] theorem connect_peer_sock : connect_peer.sock = none := again_sock 10

@[simp] theorem back_dialing (d : Dialing) : (back d).dialing = d := by cases d <;> rfl
@[simp] theorem back_bound (d : Dialing) : (back d).bound = none := by cases d <;> rfl
@[simp] theorem back_connected (d : Dialing) : (back d).connected = none := by cases d <;> rfl

theorem safeClose_cases (l : Ledger Component) (c : Component) (h : Handle) :
    safeClose l c h = l.close c h ∧ 0 < h.fd ∨ safeClose l c h = l ∧ h.fd = 0 := by
  unfold safeClose
  split
  · rename_i positive
    exact .inl ⟨rfl,positive⟩
  · rename_i zero
    exact .inr ⟨rfl,by omega⟩

theorem closeField_cases (closed : closeField l c field = (m,left)) :
    (∃ h, field = some h ∧ 0 < h.fd ∧ m = l.close c h ∧ left = none) ∨
      m = l ∧ left = field ∧ ∀ h, field = some h → h.fd = 0 := by
  unfold closeField at closed
  split at closed
  · rename_i h
    split at closed
    · rename_i positive
      cases closed
      exact .inl ⟨h,rfl,positive,rfl,rfl⟩
    · rename_i zero
      cases closed
      exact .inr ⟨rfl,rfl,fun k same => by cases same; omega⟩
  · cases closed
    exact .inr ⟨rfl,rfl,fun k same => by cases same⟩

theorem safeClose_closings (l : Ledger Component) (c : Component) (h : Handle) :
    l.closings ⊆ (safeClose l c h).closings := by
  rcases safeClose_cases l c h with ⟨same,_⟩ | ⟨same,_⟩ <;> rw [same]
  · exact List.subset_cons_self _ _
  · exact List.Subset.refl _

theorem closeField_closings (closed : closeField l c field = (m,left)) : l.closings ⊆ m.closings := by
  rcases closeField_cases closed with ⟨h,_,_,rfl,_⟩ | ⟨rfl,_⟩
  · exact List.subset_cons_self _ _
  · exact List.Subset.refl _

theorem socket_closings {l m : Ledger Component} (made : l.socket c n = some (m,h)) : l.closings ⊆ m.closings := by
  rw [(socket_cases made).2.2.2.2]
  exact List.Subset.refl _

theorem Dials.closings (dials : Dials l c d event m e) : l.closings ⊆ m.closings := by
  cases dials with
  | refused => exact List.Subset.refl _
  | opened made => exact socket_closings made
  | connected => exact List.Subset.refl _
  | failed => exact safeClose_closings ..
  | done => exact safeClose_closings ..

-- Main is elsewhere, and more has been closed.
theorem Wired.onward (wired : Wired s) (more : s.ledger.closings ⊆ m.closings)
    (unlistened : pc.unlistened = true → s.pc.unlistened = true)
    (unconnected : pc.unconnected = true → s.pc.unconnected = true) (silenced : pc.silenced = s.pc.silenced)
    (torn : ∀ h, pc = .conn_event_cb h → (.connection,h) ∈ m.closings) :
    Wired {s with ledger := m,pc := pc} :=
  ⟨fun at_ => wired.unlistened (unlistened at_),fun at_ => wired.unconnected (unconnected at_),
    fun at_ => wired.listens (silenced ▸ at_),fun at_ => wired.talks (silenced ▸ at_),torn,
    fun gone h here => more (wired.freed gone h here),
    fun at_ h here => more (wired.silenced (silenced ▸ at_) h here)⟩

-- No premise of Wired holds behind such a move that did not hold before it.
def calm (before after : Pc) : Bool :=
  (before.unlistened || !after.unlistened) && (before.unconnected || !after.unconnected) && after.silenced == before.silenced &&
    match after with
    | .conn_event_cb _ => false
    | _ => true

theorem dispatch_calm (d : Dialing) : calm .dispatch (back d) = true := by cases d <;> rfl

theorem user_cb_calm (d e : Dialing) : calm (.user_cb d) (back e) = true := by cases e <;> rfl

theorem Wired.moved (wired : Wired s) (place : s.pc = before) (more : s.ledger.closings ⊆ m.closings)
    (quiet : calm before after = true) : Wired {s with ledger := m,pc := after} := by
  simp only [calm,Bool.and_eq_true,Bool.or_eq_true,Bool.not_eq_true',beq_iff_eq] at quiet
  obtain ⟨⟨⟨unlistened,unconnected⟩,silenced⟩,event⟩ := quiet
  refine wired.onward more ?_ ?_ (by rw [place]; exact silenced) ?_
  · intro at_
    rw [place]
    exact unlistened.resolve_right (by rw [at_]; exact Bool.noConfusion)
  · intro at_
    rw [place]
    exact unconnected.resolve_right (by rw [at_]; exact Bool.noConfusion)
  · rintro h rfl
    cases event

-- The fields that Wired does not look at.
theorem Wired.frame (wired : Wired s) (timer user : Bool) (threads : List Dialing) :
    Wired {s with pping_event := timer,puser_event := user,threads := threads} :=
  ⟨wired.unlistened,wired.unconnected,wired.listens,wired.talks,wired.torn,wired.freed,wired.silenced⟩

theorem step_wired (wired : Wired s) (taken : step s action = some t) : Wired t := by
  have same := List.Subset.refl s.ledger.closings
  cases step_moves taken with
  | @punch i d _ m e found dials =>
      have now : Wired {s with ledger := m} := wired.onward dials.closings id id rfl (fun h at_ => dials.closings (wired.torn h at_))
      exact now.frame _ _ _
  | unbound place => exact wired.moved place same rfl
  | bound place made => exact wired.moved place (socket_closings made) rfl
  | listens place =>
      obtain ⟨none,alive⟩ := wired.unconnected (by rw [place]; rfl)
      constructor <;> simp_all [Pc.unlistened,Pc.unconnected,Pc.silenced,wired.talks]
  | unlistened place => exact wired.moved place (List.subset_cons_self _ _) rfl
  | unopened place => exact wired.moved place same rfl
  | opened place made => exact wired.moved place (socket_closings made) rfl
  | connected place =>
      obtain ⟨none,alive⟩ := wired.unconnected (by rw [place]; rfl)
      constructor <;> simp_all [Pc.unlistened,Pc.unconnected,Pc.silenced,wired.listens]
  | unconnected place => exact wired.moved place (safeClose_closings ..) rfl
  | timed pc place next =>
      have now : Wired {s with pc := pc} := by rcases next with rfl | rfl <;> exact wired.moved place same rfl
      exact now.frame _ _ _
  | entered place =>
      have now : Wired {s with pc := .dispatch} := wired.moved place same rfl
      exact now.frame _ _ _
  | untimed place => rcases place with place | place <;> exact wired.moved place same rfl
  | accepted place made =>
      exact wired.onward (socket_closings made) id id rfl (fun h at_ => by simp [place] at at_)
  | pinged place => exact wired.frame _ _ _
  | requested place =>
      have now : Wired {s with pc := .dispatch} := wired.moved place same rfl
      exact now.frame _ _ _
  | answered place =>
      have now : Wired {s with pc := back connect_peer} := wired.moved place same (dispatch_calm _)
      exact now.frame _ _ _
  | dialed place dials => exact wired.moved place dials.closings (user_cb_calm _ _)
  | read place => exact wired
  | punched place => exact wired.frame _ _ _
  | freed place alive bev =>
      have talks := wired.talks (by rw [place]; rfl)
      constructor <;> simp_all [Pc.unlistened,Pc.unconnected,Pc.silenced,Ledger.close,wired.listens]
  | closed place => exact wired.moved place (safeClose_closings ..) rfl
  | left place => exact wired.moved place same rfl
  | silenced place listening =>
      have listens := wired.listens (by rw [place]; rfl)
      constructor <;> simp_all [Pc.unlistened,Pc.unconnected,Pc.silenced,Ledger.close,wired.freed]
  | unlistening place none =>
      have listens := wired.listens (by rw [place]; rfl)
      constructor <;> simp_all [Pc.unlistened,Pc.unconnected,Pc.silenced,wired.freed]
  | hungUp place closed =>
      have more := closeField_closings closed
      have kept := fun h here => more (wired.silenced (by rw [place]; rfl) h here)
      rcases closeField_cases closed with ⟨h,here,_,rfl,rfl⟩ | ⟨rfl,rfl,_⟩
      · constructor <;> simp_all [Pc.unlistened,Pc.unconnected,Pc.silenced]
      · constructor <;> simp_all [Pc.unlistened,Pc.unconnected,Pc.silenced,wired.freed]
  | finished place closed =>
      have more := closeField_closings closed
      have gone := fun left h here => more (wired.freed left h here)
      rcases closeField_cases closed with ⟨h,here,_,rfl,rfl⟩ | ⟨rfl,rfl,_⟩
      · constructor <;> simp_all [Pc.unlistened,Pc.unconnected,Pc.silenced]
      · constructor <;> simp_all [Pc.unlistened,Pc.unconnected,Pc.silenced,wired.silenced]

-- What a step does to the ledger, with what the components still hold behind it.
inductive Effect (s : State) (action : Action) (t : State) : Prop where
  | quiet : t.ledger = s.ledger → (∀ d k, holding t d = some k → holding s d = some k) → Effect s action t
  | opens : s.ledger.socket c n = some (t.ledger,h) →
      (∀ d k, holding t d = some k → holding s d = some k ∨ d = c ∧ k = h) → Effect s action t
  | closes : t.ledger = s.ledger.close c h → holding s c = some h →
      (∀ d k, holding t d = some k → holding s d = some k ∧ d ≠ c) → Effect s action t
  -- libevent has closed it before
  | repeats : t.ledger = s.ledger.close c h → (c,h) ∈ s.ledger.closings → ¬ Avoids s action t → Effect s action t

theorem Dials.effect (dials : Dials s.ledger c d event t.ledger e) (before : holding s c = d.sock)
    (after : holding t c = e.sock) (others : ∀ b, b ≠ c → holding t b = holding s b) : Effect s action t := by
  have closing : ∀ h, d.sock = some h → e.sock = none → t.ledger = safeClose s.ledger c h → Effect s action t := by
    intro h here gone ledger
    rw [gone] at after
    have less : ∀ b k, holding t b = some k → holding s b = some k ∧ b ≠ c := by
      intro b k has
      have other : b ≠ c := fun same => by rw [same,after] at has; cases has
      exact ⟨by rw [← others b other,has],other⟩
    rcases safeClose_cases s.ledger c h with ⟨same,_⟩ | ⟨same,_⟩
    · exact .closes (ledger.trans same) (before.trans here) less
    · exact .quiet (ledger.trans same) (fun b k has => (less b k has).1)
  have kept : t.ledger = s.ledger → (e.sock = none ∨ e.sock = d.sock) → Effect s action t := by
    intro ledger sock
    refine .quiet ledger (fun b k has => ?_)
    by_cases same : b = c
    · rw [same,after] at has
      rw [same,before]
      rcases sock with none | sock
      · rw [none] at has
        cases has
      · rw [← sock,has]
    · rw [← others b same,has]
  generalize ledger : t.ledger = m at dials
  cases dials with
  | refused => exact kept ledger (.inl (again_sock _))
  | opened made =>
      refine .opens (ledger ▸ made) (fun b k has => ?_)
      by_cases same : b = c
      · rw [same,after] at has
        exact .inr ⟨same,(Option.some.inj has).symm⟩
      · exact .inl (by rw [← others b same,has])
  | connected => exact kept ledger (.inr rfl)
  | failed => exact closing _ rfl (again_sock _) ledger
  | done => exact closing _ rfl rfl ledger

theorem step_effect (wired : Wired s) (taken : step s action = some t) : Effect s action t := by
  have moves := step_moves taken
  clear taken
  cases moves
  case punch i d event m e found dials =>
      refine Dials.effect (t:={s with ledger := m,threads := s.threads.set i e}) dials ?_ ?_ ?_
      · simp [holding,found]
      · obtain ⟨near,_⟩ := List.getElem?_eq_some_iff.mp found
        simp [holding,List.getElem?_set_self near]
      · intro b other
        cases b with
        | punch j =>
            have apart : i ≠ j := fun same => other (by rw [same])
            simp [holding,List.getElem?_set_ne apart]
        | _ => rfl
  case dialed d event m e place dials =>
      refine Dials.effect (t:={s with ledger := m,pc := back e}) dials ?_ ?_ ?_
      · simp [holding,place,Pc.dialing]
      · simp [holding]
      · have alone : (Pc.user_cb d).bound = none ∧ (Pc.user_cb d).connected = none := ⟨rfl,rfl⟩
        intro b other
        cases b <;> simp_all [holding]
  case bound place made | opened place made | accepted place made =>
      exact .opens made (fun d k has => by cases d <;> simp_all [holding,Pc.bound,Pc.connected,Pc.dialing])
  case unlistened h place =>
      have none := wired.unlistened (by rw [place]; rfl)
      refine .closes rfl (by simp [holding,place,Pc.bound]) (fun d k has => ?_)
      cases d <;> simp_all [holding,Pc.bound,Pc.connected,Pc.dialing]
  case unconnected h place =>
      obtain ⟨none,alive⟩ := wired.unconnected (by rw [place]; rfl)
      have less : ∀ d k, holding {s with ledger := safeClose s.ledger .connection h,pc := .uninit} d = some k →
          holding s d = some k ∧ d ≠ .connection := by
        intro d k has
        cases d <;> simp_all [holding,Pc.bound,Pc.connected,Pc.dialing]
      rcases safeClose_cases s.ledger .connection h with ⟨same,_⟩ | ⟨same,_⟩
      · exact .closes same (by simp [holding,place,Pc.connected]) less
      · exact .quiet same (fun d k has => (less d k has).1)
  case punched place =>
      refine .quiet rfl (fun d k has => ?_)
      cases d with
      | punch j =>
          by_cases near : j < s.threads.length
          · simpa [holding,List.getElem?_append_left near] using has
          · obtain ⟨e,there,sock⟩ := Option.bind_eq_some_iff.mp has
            rw [List.getElem?_append_right (Nat.le_of_not_lt near)] at there
            rw [List.mem_singleton.mp (List.mem_of_getElem? there),connect_peer_sock] at sock
            cases sock
      | _ => simp_all [holding]
  case freed h place alive bev =>
      have talks := wired.talks (by rw [place]; rfl)
      refine .closes rfl (by simp [holding,place,Pc.connected,alive,← talks,bev]) (fun d k has => ?_)
      cases d <;> simp_all [holding,Pc.bound,Pc.connected,Pc.dialing]
  case closed h place =>
      rcases safeClose_cases s.ledger .connection h with ⟨same,positive⟩ | ⟨same,_⟩
      · exact .repeats same (wired.torn h place) (fun avoids => absurd (avoids.event rfl h place) (Nat.ne_of_gt positive))
      · exact .quiet same (fun d k has => by cases d <;> simp_all [holding,Pc.bound,Pc.connected,Pc.dialing])
  case silenced h place listening =>
      refine .closes rfl (by simp [holding,place,Pc.bound,listening]) (fun d k has => ?_)
      cases d <;> simp_all [holding,Pc.bound,Pc.connected,Pc.dialing]
  case hungUp m field place closed =>
      rcases closeField_cases closed with ⟨h,here,positive,same,rfl⟩ | ⟨same,rfl,_⟩
      · cases gone : s.freed with
        | true => exact .repeats same (wired.freed gone h here) (fun avoids => absurd (avoids.server rfl gone h here) (Nat.ne_of_gt positive))
        | false =>
            refine .closes same (by simp [holding,place,Pc.connected,gone,here]) (fun d k has => ?_)
            cases d <;> simp_all [holding,Pc.bound,Pc.connected,Pc.dialing]
      · exact .quiet same (fun d k has => by cases d <;> simp_all [holding,Pc.bound,Pc.connected,Pc.dialing])
  case finished m field place closed =>
      rcases closeField_cases closed with ⟨h,here,positive,same,rfl⟩ | ⟨same,_,_⟩
      · have before := wired.silenced (by rw [place]; rfl) h here
        exact .repeats same before (fun avoids => absurd (avoids.listening rfl h here) (Nat.ne_of_gt positive))
      · exact .quiet same (fun d k has => by cases d <;> simp_all [holding,Pc.bound,Pc.connected,Pc.dialing])
  case timed pc place next =>
      refine .quiet rfl (fun d k has => ?_)
      rcases next with rfl | rfl <;> cases d <;> simp_all [holding,Pc.bound,Pc.connected,Pc.dialing]
  case untimed place =>
      refine .quiet rfl (fun d k has => ?_)
      rcases place with place | place <;> cases d <;> simp_all [holding,Pc.bound,Pc.connected,Pc.dialing]
  case answered place =>
      have alone : Pc.dispatch.bound = none ∧ Pc.dispatch.connected = none := ⟨rfl,rfl⟩
      exact .quiet rfl (fun d k has => by cases d <;> simp_all [holding])
  -- Only main is elsewhere, or a field has taken over what main had.
  all_goals exact .quiet rfl (fun d k has => by cases d <;> simp_all [holding,Pc.bound,Pc.connected,Pc.dialing])

structure Kept (s : State) : Prop where
  wired : Wired s
  owned : Owned s.ledger (holding s)

theorem initial_kept (l : Ledger Component) (device_sn : UInt64) : Kept (initial l device_sn) := by
  refine ⟨initial_wired l device_sn,⟨fun c h closed => ?_,fun n o _ c h closed => ?_⟩,fun c h has => ?_⟩
  · cases closed
  · cases closed
  · cases c <;> simp [initial,holding,Pc.bound,Pc.connected,Pc.dialing,Dialing.sock] at has

theorem step_kept (kept : Kept s) (taken : step s action = some t) (avoids : Avoids s action t) : Kept t := by
  refine ⟨step_wired kept.wired taken,?_⟩
  cases step_effect kept.wired taken with
  | quiet same less =>
      rw [same]
      exact kept.owned.keep less
  | opens made others => exact kept.owned.socket made others
  | closes same mine others =>
      rw [same]
      exact kept.owned.close mine others
  | repeats _ _ meets => exact absurd avoids meets

theorem step_sound (kept : Kept s) (taken : step s action = some t) (avoids : Avoids s action t) : Sound s action t := by
  have unequal : ∀ (x : Component × Handle) l, l ≠ x :: l := fun x l same => by simpa using congrArg List.length same
  have close : ∀ c sock, t.ledger.closings = (c,sock) :: s.ledger.closings →
      Held s.ledger c sock ∧ (c,sock) ∉ s.ledger.closings := by
    intro c sock closed
    cases step_effect kept.wired taken with
    | quiet same _ =>
        rw [same] at closed
        exact absurd closed (unequal _ _)
    | opens made _ =>
        rw [(socket_cases made).2.2.2.2] at closed
        exact absurd closed (unequal _ _)
    | closes same mine _ =>
        rw [same] at closed
        cases closed
        have held := kept.owned.held _ _ mine
        exact ⟨held,held.unclosed kept.owned.clean⟩
    | repeats _ _ meets => exact absurd avoids meets
  exact ⟨fun c sock closed => (close c sock closed).1,fun c sock closed => (close c sock closed).2,avoids.timers⟩

theorem sound_avoids (wired : Wired s) (taken : step s action = some t) (sound : Sound s action t) : Avoids s action t := by
  have moves := step_moves taken
  clear taken
  refine ⟨fun same h place => ?_,fun same gone h here => ?_,fun same h here => ?_,sound.used⟩
  · subst same
    cases moves with
    | closed place' =>
        cases place.symm.trans place'
        rcases safeClose_cases s.ledger .connection h with ⟨closes,_⟩ | ⟨_,zero⟩
        · exact absurd (wired.torn h place) (sound.once .connection h (congrArg Ledger.closings closes))
        · exact zero
  · subst same
    cases moves with
    | hungUp place closed =>
        rcases closeField_cases closed with ⟨k,field,_,closes,_⟩ | ⟨_,_,zero⟩
        · cases here.symm.trans field
          exact absurd (wired.freed gone h here) (sound.once .connection h (congrArg Ledger.closings closes))
        · exact zero h here
  · subst same
    cases moves with
    | finished place closed =>
        rcases closeField_cases closed with ⟨k,field,_,closes,_⟩ | ⟨_,_,zero⟩
        · cases here.symm.trans field
          have before := wired.silenced (by rw [place]; rfl) h here
          exact absurd before (sound.once .listening h (congrArg Ledger.closings closes))
        · exact zero h here

theorem descriptors_owned (l : Ledger Component) (device_sn : UInt64) (actions : List Action) (s : State) :
    Along step Sound (initial l device_sn) actions s ↔ Along step Avoids (initial l device_sn) actions s := by
  constructor
  · intro along
    exact along.imp (fun _ _ _ wired taken _ => step_wired wired taken)
      (fun _ _ _ wired taken sound => sound_avoids wired taken sound) (initial_wired l device_sn)
  · intro along
    exact along.imp (fun _ _ _ kept taken avoids => step_kept kept taken avoids)
      (fun _ _ _ kept taken avoids => step_sound kept taken avoids) (initial_kept l device_sn)

-- The server goes away while a thread punches its first hole: bufferevent_free closes 4,
-- socket() gives 4 to the thread, and SAFE_CLOSE takes it away again.
def recycled : List Action :=
  [.bind (some 3),.options true,.socket (some 4),.connect true,.addEvent true,.addEvent true,.ping true,
    .read true,.event,.punch 0 (.socket (some 4)),.safeClose]

def unopened : Ledger Component := ⟨fun _ => none,0,[],(fun _ _ found => by cases found),(fun _ _ _ _ found => by cases found)⟩

theorem recycled_closed :
    ∃ s t, Sequence step (initial unopened 1111) recycled.dropLast s ∧ Held s.ledger (.punch 0) ⟨4,2⟩ ∧
      step s .safeClose = some t ∧ t.ledger.entry 4 = none ∧ ¬ Along step Sound (initial unopened 1111) recycled t := by
  obtain ⟨s,path⟩ := run_reaches (show (run step (initial unopened 1111) recycled.dropLast).isSome by decide)
  have held := path.tested (fun s => decide (s.ledger.entry 4 = some ⟨.punch 0,2⟩)) (by decide)
  have closes := path.tested (fun s => (step s .safeClose).any fun t =>
    decide (t.ledger.entry 4 = none) && decide (t.ledger.closings = (.connection,⟨4,1⟩) :: s.ledger.closings)) (by decide)
  obtain ⟨t,taken,closes⟩ := (Option.any_eq_true _ _).mp closes
  simp only [Bool.and_eq_true,decide_eq_true_eq] at held closes
  obtain ⟨gone,closed⟩ := closes
  refine ⟨s,t,path,held,taken,gone,?_⟩
  intro along
  have split : recycled = recycled.dropLast ++ [.safeClose] := rfl
  rw [split] at along
  obtain ⟨m,same,_,sound⟩ := along.last
  cases Option.some.inj ((run_exact.mpr path).symm.trans (run_exact.mpr same))
  have owned := sound.owned .connection ⟨4,1⟩ closed
  cases held.symm.trans owned

end PersonalJournal.Peer
