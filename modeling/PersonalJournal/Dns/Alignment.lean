import PersonalJournal.Dns.RecordWalk
import PersonalJournal.Dns.Reply

namespace PersonalJournal.Alignment
open Bytes DomainName ResourceRecord ReadName NameWalk Query Answer RecordWalk Reply

-- A turn of the loop of ReadRecvAnswer: where _reader stood, the entry, where it stands then.
structure Pass where
  start : Nat
  answer : ResRecord
  final : Nat

inductive Passes (alloc : Allocator) (fuel : Nat) (buffer : List UInt8) : Nat → Nat → List Pass → Prop where
  | nil : Passes alloc fuel buffer reader calls []
  | cons : recvTurn AAAA alloc fuel buffer reader calls = .ok (answer,some (reader',calls')) →
      Passes alloc fuel buffer reader' calls' rest → Passes alloc fuel buffer reader calls (⟨reader,answer,reader'⟩ :: rest)

theorem passes_parse (passes : Passes alloc fuel buffer reader calls turns) :
    readRecvAnswer alloc fuel buffer turns.length reader calls = .ok (turns.map (·.answer)) := by
  induction passes with
  | nil => rfl
  | cons turn _ ih =>
      rw [readRecvAnswer] at ih ⊢
      rw [List.length_cons,readAnswers,turn,ok_bind]
      simp only [ih,ok_bind,pure_ok,List.map_cons]

theorem passes_mono (passes : Passes alloc fuel buffer reader calls turns) (enough : fuel ≤ more) :
    Passes alloc more buffer reader calls turns := by
  induction passes with
  | nil => exact .nil
  | cons turn _ ih => exact .cons (recvTurn_mono turn enough) ih

-- The turn goes over just this record, and an address is recognised and copied.
structure Aligned (turn : Pass) (p : Place) : Prop where
  start : turn.start = p.start
  final : turn.final = p.final
  address : p.record.type = AAAA → turn.answer.resource = some p.fixed ∧
    ∃ block, turn.answer.rdata = some block ∧ block.Holds 0 p.record.rdata

-- The octets of the owner name at the record lead up to its fixed part.
def OwnerSpans (buffer : List UInt8) (p : Place) : Prop := ∃ n, p.fixed = p.start+n ∧ Spans buffer p.start n

-- The record is an address, or RDATA looks like one name just as long. Behind an owner
-- cut short by a zero octet only a coincidence leads to the next record.
def Skipped (buffer : List UInt8) (p : Place) : Prop :=
  OwnerSpans buffer p ∧ (p.record.type = AAAA ∨ Named buffer p.rdata p.record.rdata.length) ∨
    ¬ OwnerSpans buffer p ∧ p.record.type ≠ AAAA ∧ ∃ off, Iterates buffer p.start off p.final

variable {p : Place}

theorem label_closes (label : List UInt8) (small : ∀ c ∈ label, c < 192) (held : At buffer i label)
    (rest : ∃ stored, Closes buffer (i+label.length) stored) : ∃ stored, Closes buffer i stored := by
  induction label generalizing i with
  | nil => exact rest
  | cons c label ih =>
      obtain ⟨here,later⟩ := at_cons.mp held
      obtain ⟨first,others⟩ := List.forall_mem_cons.mp small
      by_cases zero : c = 0
      · exact ⟨[],.zero (by rw [here,zero])⟩
      · rw [List.length_cons,Nat.add_comm label.length 1,← Nat.add_assoc] at rest
        obtain ⟨stored,closes⟩ := ih others later rest
        exact ⟨c :: stored,.octet here ⟨zero,first⟩ closes⟩

theorem encodes_closes (encoded : Encodes buffer i labels n) (ascii : Ascii labels) : ∃ stored, Closes buffer i stored := by
  induction encoded with
  | root here => exact ⟨[],.zero here⟩
  | @pointer i high low labels n here large behind _ ih =>
      obtain ⟨stored,closes⟩ := ih ascii
      have large' : 192 ≤ high.toNat := UInt8.le_iff_toNat_le.mp large
      have target : (high.toNat-192)*256+low.toNat = high.toNat*256+low.toNat-49152 := by omega
      rw [target] at closes
      exact ⟨stored,.pointer here large behind closes⟩
  | @label label i rest n sized held _ ih =>
      obtain ⟨first,octets⟩ := at_cons.mp held
      obtain ⟨inner,whole⟩ := label_closes label
        (fun c inside => UInt8.lt_trans (ascii label List.mem_cons_self c inside) (by decide)) octets
        (ih (fun l member => ascii l (List.mem_cons_of_mem _ member)))
      exact ⟨_ :: inner,.octet first (lengthOctet_plain sized) whole⟩

theorem owner_named (stands : p.Stands buffer) (ascii : AsciiName p.record.owner) :
    Named buffer p.start n ↔ Spans buffer p.start n := by
  constructor
  · exact And.left
  · intro spans
    obtain ⟨_,encoded,_⟩ := stands.owner
    exact ⟨spans,encodes_closes encoded ascii.ascii⟩

theorem iterates_fixed (stands : p.Stands buffer) (ascii : AsciiName p.record.owner) :
    Iterates buffer p.start p.fixed p.final ↔
      OwnerSpans buffer p ∧ (p.record.type = AAAA ∨ Named buffer p.rdata p.record.rdata.length) := by
  obtain ⟨fixed,data⟩ := at_append.mp stands.held
  rw [p.record.fixed_length] at data
  have type := fixed_type stands.type fixed
  rw [iterates_iff]
  constructor
  · intro ⟨n,fits,name,kind⟩
    refine ⟨⟨n,fits,name.1⟩,?_⟩
    rcases kind with ⟨v6,_⟩ | ⟨type',m,_,_,target,final⟩
    · exact .inl (Option.some.inj (type.symm.trans v6))
    · right
      unfold Place.final Place.rdata at final
      rw [Nat.add_left_cancel final]
      exact target
  · intro ⟨⟨n,fits,spans⟩,kind⟩
    refine ⟨n,fits,(owner_named stands ascii).mpr spans,?_⟩
    by_cases v6 : p.record.type = AAAA
    · exact .inl ⟨type.trans (congrArg some v6),_,fixed_rdlength stands.size fixed,data,rfl⟩
    · rcases kind with v6' | target
      · exact absurd v6' v6
      · exact .inr ⟨_,_,type,v6,target,rfl⟩

theorem skipped_iterates (stands : p.Stands buffer) (ascii : AsciiName p.record.owner) :
    Skipped buffer p ↔ ∃ off, Iterates buffer p.start off p.final ∧ (p.record.type = AAAA → off = p.fixed) := by
  constructor
  · intro skipped
    rcases skipped with whole | ⟨_,differ,off,iterates⟩
    · exact ⟨p.fixed,(iterates_fixed stands ascii).mpr whole,fun _ => rfl⟩
    · exact ⟨off,iterates,fun v6 => absurd v6 differ⟩
  · intro ⟨off,iterates,kept⟩
    by_cases owner : OwnerSpans buffer p
    · left
      obtain ⟨n,fits,spans⟩ := owner
      obtain ⟨m,place,name,_⟩ := iterates_iff.mp iterates
      rw [name.unique ((owner_named stands ascii).mpr spans),← fits] at place
      rw [place] at iterates
      exact (iterates_fixed stands ascii).mp iterates
    · right
      refine ⟨owner,?_,off,iterates⟩
      intro v6
      rw [kept v6] at iterates
      exact owner ((iterates_fixed stands ascii).mp iterates).1

-- One pass over a record that stands where the reader is.
theorem pass_aligned (granted : Grants alloc) (stands : p.Stands buffer) (ascii : AsciiName p.record.owner)
    (turn : recvTurn AAAA alloc fuel buffer p.start calls = .ok (answer,some (p.final,used))) :
    Aligned ⟨p.start,answer,p.final⟩ p ↔ Skipped buffer p := by
  obtain ⟨off,j,used',same,iterates,entry⟩ := recvTurn_iterates granted turn
  cases same
  rw [skipped_iterates stands ascii]
  constructor
  · intro aligned
    refine ⟨off,iterates,fun v6 => ?_⟩
    have resource := (aligned.address v6).1
    exact Option.some.inj (entry.resource.symm.trans resource)
  · intro ⟨off',iterates',kept⟩
    refine ⟨rfl,rfl,fun v6 => ?_⟩
    obtain ⟨rfl,_⟩ := iterates.unique iterates'
    rw [kept v6] at entry
    obtain ⟨fixed,data⟩ := at_append.mp stands.held
    rw [p.record.fixed_length] at data
    obtain ⟨copy,block,size,held,rdata,holds⟩ := entry.rdata ((fixed_type stands.type fixed).trans (congrArg some v6))
    have same := at_unique held data (Option.some.inj (size.symm.trans (fixed_rdlength stands.size fixed)))
    rw [same] at holds
    exact ⟨entry.resource,block,rdata,holds⟩

-- The loop stands at each record in turn and copies the addresses among them.
def Keeps (alloc : Allocator) (buffer : List UInt8) (start calls : Nat) (all : List Place) : Prop :=
  ∃ fuel turns, Passes alloc fuel buffer start calls turns ∧ List.Forall₂ Aligned turns all

theorem keeps_skipped (granted : Grants alloc) (places : Places buffer i all final)
    (ascii : ∀ p ∈ all, AsciiName p.record.owner) (calls : Nat) :
    Keeps alloc buffer i calls all ↔ ∀ p ∈ all, Skipped buffer p := by
  induction places generalizing calls with
  | nil =>
      constructor
      · simp
      · intro _
        exact ⟨0,[],.nil,.nil⟩
  | cons stands _ ih =>
      obtain ⟨first,others⟩ := List.forall_mem_cons.mp ascii
      constructor
      · intro ⟨fuel,turns,passes,aligned⟩
        cases aligned with
        | cons here later =>
            cases passes with
            | cons turn onward =>
                have final := here.final
                dsimp only at final
                subst final
                exact List.forall_mem_cons.mpr ⟨(pass_aligned granted stands first turn).mp here,
                  (ih others _).mp ⟨fuel,_,onward,later⟩⟩
      · intro skipped
        obtain ⟨here,later⟩ := List.forall_mem_cons.mp skipped
        obtain ⟨off,iterates,_⟩ := (skipped_iterates stands first).mp here
        obtain ⟨fuel,answer,used,ran⟩ := iterates_recvTurn granted iterates calls
        obtain ⟨fuel',turns,passes,aligned⟩ := (ih others used).mpr later
        refine ⟨max fuel fuel',_,.cons (recvTurn_mono ran (Nat.le_max_left _ _))
          (passes_mono passes (Nat.le_max_right _ _)),.cons ?_ aligned⟩
        exact (pass_aligned granted stands first ran).mpr here

theorem cursor_aligned (granted : Grants alloc) (answers : Places buffer start places final)
    (ascii : ∀ p ∈ places, AsciiName p.record.owner) :
    Keeps alloc buffer start 0 (places.take socketMaxIpCount) ↔
      ∀ p ∈ places.take socketMaxIpCount, Skipped buffer p := by
  obtain ⟨middle,first⟩ := answers.take socketMaxIpCount
  exact keeps_skipped granted first (fun p member => ascii p (List.mem_of_mem_take member)) 0

def A : Nat := 1

theorem nameA : AsciiName [[97]] := asciiName_short _ (by decide) rfl (by decide)

-- A record whose owner is a pointer to the name of one letter in the question.
theorem stands_pointer (p : Place) (question : Encodes message 12 [[97]] 3) (high : message[p.start]? = some 192)
    (low : message[p.start+1]? = some 12) (owner : p.record.owner = [[97]]) (fixed : p.fixed = p.start+2)
    (type : p.record.type < 65536) (size : p.record.rdata.length < 65536)
    (held : At message p.fixed (p.record.fixed ++ p.record.rdata)) : p.Stands message :=
  ⟨⟨2,by rw [owner]; exact .pointer high (by decide) low question,fixed⟩,type,size,held⟩

theorem plain_octets (octets : List UInt8) (checked : octets.all (fun c => decide (c ≠ 0 ∧ c < 192)) = true) :
    ∀ c ∈ octets, c ≠ 0 ∧ c < 192 :=
  fun c member => of_decide_eq_true (List.all_eq_true.mp checked c member)

def addressPlace : Place := ⟨35,37,⟨[[97]],AAAA,1,0,address1.s6_addr⟩⟩

def aliasPlace : Place := ⟨19,21,⟨[[97]],CNAME,1,0,[1,98,192,12]⟩⟩

theorem cursor_aligned_alias : Keeps always aliasReply 19 0 ([aliasPlace,addressPlace].take socketMaxIpCount) := by
  have question : Encodes aliasReply 12 [[97]] 3 := .label (⟨by decide,by decide⟩ : Sized [97]) (by decide) (.root rfl)
  have answers : Places aliasReply 19 [aliasPlace,addressPlace] 63 :=
    .cons (stands_pointer aliasPlace question rfl rfl rfl rfl (by decide) (by decide) (by decide))
      (.cons (stands_pointer addressPlace question rfl rfl rfl rfl (by decide) (by decide) (by decide)) .nil)
  apply (cursor_aligned always_grants answers (List.forall_mem_cons.mpr ⟨nameA,List.forall_mem_cons.mpr ⟨nameA,by simp⟩⟩)).mpr
  have owner : ∀ i, aliasReply[i]? = some 192 → Spans aliasReply i 2 := fun i high => .pointer high (by decide)
  have plain : ∀ c ∈ ([1,98,97] : List UInt8), c ≠ 0 ∧ c < 192 := plain_octets _ (by decide)
  have target : Named aliasReply 31 4 := by
    refine ⟨.octet (c:=1) rfl (plain _ (by decide)) (.octet (c:=98) rfl (plain _ (by decide)) (owner 33 rfl)),[1,98,1,97],?_⟩
    refine .octet rfl (plain _ (by decide)) (.octet rfl (plain _ (by decide)) (.pointer (c:=192) (d:=12) rfl (by decide) rfl ?_))
    exact .octet rfl (plain _ (by decide)) (.octet rfl (plain _ (by decide)) (.zero rfl))
  exact List.forall_mem_cons.mpr ⟨.inl ⟨⟨2,rfl,owner 19 rfl⟩,.inr target⟩,
    List.forall_mem_cons.mpr ⟨.inl ⟨⟨2,rfl,owner 35 rfl⟩,.inl rfl⟩,by simp⟩⟩

-- An A record for 1.2.3.4 in front of the address.
def mixedReply : List UInt8 :=
  [0,0,129,128,0,1,0,2,0,0,0,0,1,97,0,0,28,0,1] ++
  [192,12,0,1,0,1,0,0,0,0,0,4,1,2,3,4] ++ [192,12,0,28,0,1,0,0,0,0,0,16] ++ address1.s6_addr

def mixedPlace : Place := ⟨19,21,⟨[[97]],A,1,0,[1,2,3,4]⟩⟩

-- Its four octets and the owner of the next record are read as one name.
theorem mixed_misaligned :
    Places mixedReply 19 [mixedPlace,addressPlace] 63 ∧ (∀ p ∈ [mixedPlace,addressPlace], AsciiName p.record.owner) ∧
      answerCount mixedReply = some 2 ∧ ¬ Keeps always mixedReply 19 0 ([mixedPlace,addressPlace].take socketMaxIpCount) := by
  have question : Encodes mixedReply 12 [[97]] 3 := .label (⟨by decide,by decide⟩ : Sized [97]) (by decide) (.root rfl)
  have answers : Places mixedReply 19 [mixedPlace,addressPlace] 63 :=
    .cons (stands_pointer mixedPlace question rfl rfl rfl rfl (by decide) (by decide) (by decide))
      (.cons (stands_pointer addressPlace question rfl rfl rfl rfl (by decide) (by decide) (by decide)) .nil)
  have ascii : ∀ p ∈ [mixedPlace,addressPlace], AsciiName p.record.owner :=
    List.forall_mem_cons.mpr ⟨nameA,List.forall_mem_cons.mpr ⟨nameA,by simp⟩⟩
  have plain : ∀ c ∈ ([1,2,3,4] : List UInt8), c ≠ 0 ∧ c < 192 := plain_octets _ (by decide)
  have six : Spans mixedReply 31 6 :=
    .octet (c:=1) rfl (plain _ (by decide)) (.octet (c:=2) rfl (plain _ (by decide)) (.octet (c:=3) rfl (plain _ (by decide))
      (.octet (c:=4) rfl (plain _ (by decide)) (.pointer (c:=192) rfl (by decide)))))
  refine ⟨answers,ascii,by decide +kernel,?_⟩
  intro keeps
  have skipped := (keeps_skipped always_grants answers ascii 0).mp keeps
  rcases (List.forall_mem_cons.mp skipped).1 with ⟨_,v6 | four⟩ | ⟨owner,_⟩
  · exact absurd v6 (by decide)
  · exact absurd (four.1.unique six) (by decide)
  · exact owner ⟨2,rfl,.pointer (c:=192) rfl (by decide)⟩

end PersonalJournal.Alignment
