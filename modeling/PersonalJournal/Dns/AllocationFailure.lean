import PersonalJournal.Dns.Reply

namespace PersonalJournal.AllocationFailure
open Bytes DomainName ResourceRecord ReadName NameWalk Query Nat64 Answer AnswerWalk Reply

-- Whatever ReadRecvAnswer leaves in answers, the collection loop gets to the end of them without
-- a fault, and adds to the table only addresses of the records, in their order. Where a name has
-- been given up the reader may run on into the memory behind recv_buf.
def Survives (alloc : Allocator) (host : HostName) (records : List Record) (datagram : List UInt8) : Prop :=
  ∀ behind count fuel answers, answerCount (received datagram) = some count →
    readRecvAnswer alloc fuel (received datagram ++ behind) count (answersAt host) 0 = .ok answers →
    ∀ t : SocketIpinfo, 0 ≤ t.size → t.size+count ≤ socketMaxIpCount →
      ∃ full added, collect (received datagram ++ behind) answers count 0 t = .ok full ∧ full.stored = t.stored ++ added ∧
        added.Sublist (records.filterMap v6)

-- On its way from record to record, as the answers of malloc and realloc lead it, no RDATA of TYPE
-- AAAA is refused a block, and such RDATA are addresses of the response, in its order.
def Spared (alloc : Allocator) (host : HostName) (records : List Record) (datagram : List UInt8) : Prop :=
  ∀ behind count, answerCount (received datagram) = some count →
    ¬ Starves AAAA alloc (received datagram ++ behind) count (answersAt host) 0 ∧
    ∀ found, Finds AAAA alloc (received datagram ++ behind) count (answersAt host) 0 found →
      (found.map octets16).Sublist (records.filterMap v6)

theorem answerCount_room (counted : answerCount buffer = some count) : (0 : Int)+count ≤ socketMaxIpCount := by
  unfold answerCount at counted
  simp only [Option.bind_eq_bind,Option.bind_eq_some_iff,Option.pure_def,Option.some.injEq] at counted
  obtain ⟨n,_,rfl⟩ := counted
  rw [Int.zero_add]
  exact_mod_cast Nat.min_le_left _ _

theorem starves_faults (counted : answerCount (received datagram) = some count)
    (starves : Starves AAAA alloc (received datagram ++ behind) count (answersAt host) 0) : ¬ Survives alloc host records datagram := by
  intro survives
  have room := answerCount_room counted
  obtain ⟨fuel,answers,returned,stopped,short⟩ := starves_parse starves
  obtain ⟨full,_,collected,_⟩ := survives behind count fuel answers counted returned emptyTable (Int.le_refl 0) room
  rw [collect,collectWith_stopped SocketIpinfo.add answers stopped (List.drop_zero ..) short] at collected
  cases collected

-- The whole call ends there.
theorem starves_call {ipinfo : SocketIpinfo} (host : HostName) (pid : Nat) (opens : env.opens = true)
    (delivered : Delivers env (effective timeout) datagram) (counted : answerCount (received datagram) = some count)
    (starves : Starves AAAA env.alloc (received datagram ++ env.behind) count (answersAt host) 0) (dnsserver : String) :
    ∃ fuel, socketGethostbyname env pid fuel false host.text ipinfo timeout (some dnsserver) = .error .fault := by
  obtain ⟨fuel,answers,returned,stopped,short⟩ := starves_parse starves
  have heard := delivered.exchanged (packet pid host.labels)
  obtain ⟨sent,ran⟩ := socketGethostbyname_run opens (prepareDnsQueryPacket_exact host pid) (sendPacklen_exact host pid _)
    (by rw [List.take_left]; exact heard) counted fuel ipinfo dnsserver
  refine ⟨fuel,ran.trans ?_⟩
  rw [answersAt,← packet_length pid] at returned
  rw [readRecvAnswer,returned,ok_bind,collect,collectWith_stopped SocketIpinfo.add answers stopped (List.drop_zero ..) short]
  rfl

-- While memory lasts, the addresses of a response whose names are plain are what is found.
theorem granted_spared (granted : Grants alloc) (response : Response PlainName host records datagram) :
    Spared alloc host records datagram := by
  intro behind count counted
  refine ⟨granted_fed granted,fun found finds => ?_⟩
  obtain ⟨found',finds',same⟩ := reply_finds granted no_alias v6_values response behind
  cases counted.symm.trans response.count
  rw [finds.unique finds',same]
  exact (List.take_sublist _ _).filterMap _

-- No response of plain names with an address among the records that are looked at is survived
-- by every outcome.
theorem addresses_lost (response : Response PlainName host records datagram) (some : addresses records ≠ []) :
    ∃ alloc, ¬ Survives alloc host records datagram := by
  obtain ⟨found,finds,same⟩ := reply_finds always_grants no_alias v6_values response []
  have any : found ≠ [] := by
    rintro rfl
    exact some same.symm
  obtain ⟨call,_,starves⟩ := finds.starved any
  exact ⟨_,starves_faults response.count starves⟩

end PersonalJournal.AllocationFailure
