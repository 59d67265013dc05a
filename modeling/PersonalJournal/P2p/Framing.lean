import Mathlib.Data.List.GetD
import PersonalJournal.Lib.LittleEndian
import PersonalJournal.P2p.Registry

namespace PersonalJournal.Framing
open LittleEndian Registry

def headSize : Nat := 40
def pingSize : Nat := 16
def deviceInfoSize : Nat := 24

def codeOf : Cmd → Nat
  | .unknownCmd => 0
  | .ping => 1
  | .queryDeviceInfoRequest => 2
  | .queryDeviceInfoResponse => 3
  | .punchHole => 4
  | .close => 5

-- The structs of p2p_transfer.h in the memory of a little-endian 64-bit host. Every
-- sender fills memory fresh from calloc, so the padding is zero.
def wireHead (h : MsgHead) : List UInt8 :=
  put 8 h.magic.toNat ++ (put 8 h.msgid.toNat ++ (put 8 h.src_device_sn.toNat ++ (put 8 h.dst_device_sn.toNat ++
    (put 4 h.cmd_len.toNat ++ put 4 (codeOf h.cmd)))))

def wireData : CmdData → List UInt8
  | .ping p => put 8 p.device_sn.toNat ++ (put 4 p.network_type.toUInt32.toNat ++ List.replicate 4 0)
  | .deviceInfo p => put 8 p.device_sn.toNat ++ (put 4 p.ip_addr.toNat ++ (put 2 p.port.toNat ++
      (List.replicate 2 0 ++ (put 4 p.network_type.toUInt32.toNat ++ List.replicate 4 0))))

def wire (m : Msg) : List UInt8 := wireHead m.head ++ wireData m.data

def readHead (block : List UInt8) (cmd : Cmd) : MsgHead :=
  ⟨.ofNat (field block 0 8),.ofNat (field block 8 8),.ofNat (field block 16 8),.ofNat (field block 24 8),
    .ofNat (field block 32 4),cmd⟩

def readPing (block : List UInt8) : MsgPing :=
  ⟨.ofNat (field block 0 8),(UInt32.ofNat (field block 8 4)).toInt32⟩

def readDeviceInfo (block : List UInt8) : MsgDeviceInfo :=
  ⟨.ofNat (field block 0 8),.ofNat (field block 8 4),.ofNat (field block 12 2),(UInt32.ofNat (field block 16 4)).toInt32⟩

-- A block from calloc after bufferevent_read has put what there is into it.
def fetched (size : Nat) (input : List UInt8) : List UInt8 :=
  input.take size ++ List.replicate (size-input.length) 0

-- One run of conn_read_cb on the input buffer of its connection: the message it
-- hands on, and the octets it leaves there. request and body are the answers of calloc.
def connRead (request body : Bool) (input : List UInt8) : Option Msg × List UInt8 :=
  if request then
    let head := fetched headSize input
    let left := input.drop headSize
    match field head 36 4 with
    | 1 => if body then
        (some ⟨readHead head .ping,.ping (readPing (fetched pingSize left))⟩,left.drop pingSize) else (none,left)
    | 2 => if body then
        (some ⟨readHead head .queryDeviceInfoRequest,.deviceInfo (readDeviceInfo (fetched deviceInfoSize left))⟩,
          left.drop deviceInfoSize) else (none,left)
    | _ => (none,left)
  else (none,input)

-- New octets on a connection, and what calloc answers in the callback they cause.
structure Segment where
  octets : List UInt8
  request : Bool
  body : Bool

def handled : List UInt8 → List Segment → List Msg
  | _,[] => []
  | input,seg :: rest =>
      let (m,left) := connRead seg.request seg.body (input ++ seg.octets)
      m.toList ++ handled left rest

def arrived (segs : List Segment) : List UInt8 := segs.flatMap (·.octets)

def stream (messages : List Msg) : List UInt8 := messages.flatMap wire

-- What a client writes: a PING or a query with its own body behind it.
inductive WellFormed : Msg → Prop where
  | ping (head : MsgHead) (data : MsgPing) : head.cmd = .ping → head.cmd_len = sizeofMsgPing →
      WellFormed ⟨head,.ping data⟩
  | query (head : MsgHead) (data : MsgDeviceInfo) : head.cmd = .queryDeviceInfoRequest →
      head.cmd_len = sizeofMsgDeviceInfo → WellFormed ⟨head,.deviceInfo data⟩

-- Behind the first n octets of the message there are only zeros, which calloc has
-- already put there.
def Complete (m : Msg) (n : Nat) : Prop := ∀ c ∈ (wire m).drop n, c = 0

-- How segments must come: `lag` octets of a message already handled are still
-- unread, and `waiting` octets have been in the input buffer for longer.
inductive Paced : Nat → Nat → List Segment → List Msg → Prop where
  | done : Paced lag waiting [] []
  | refused : seg.request = false → Paced lag (waiting+seg.octets.length) rest messages →
      Paced lag waiting (seg :: rest) messages
  | padding : seg.request = true → waiting+seg.octets.length ≤ lag →
      Paced (lag-(waiting+seg.octets.length)) 0 rest messages → Paced lag waiting (seg :: rest) messages
  | message : seg.request = true → seg.body = true → Complete m (waiting+seg.octets.length) →
      Paced ((wire m).length-(waiting+seg.octets.length)) (waiting+seg.octets.length-(wire m).length) rest messages →
      Paced 0 waiting (seg :: rest) (m :: messages)

def sizeofData : CmdData → Nat
  | .ping _ => pingSize
  | .deviceInfo _ => deviceInfoSize

theorem wireHead_length (h : MsgHead) : (wireHead h).length = headSize := by simp [wireHead,headSize]

theorem wireData_length (data : CmdData) : (wireData data).length = sizeofData data := by
  cases data with
  | ping => simp [wireData,sizeofData,pingSize]
  | deviceInfo => simp [wireData,sizeofData,deviceInfoSize]

theorem wire_length (m : Msg) : (wire m).length = headSize+sizeofData m.data := by
  rw [wire,List.length_append,wireHead_length,wireData_length]

theorem fetched_length (size : Nat) (input : List UInt8) : (fetched size input).length = size := by
  simp only [fetched,List.length_append,List.length_take,List.length_replicate]
  omega

theorem fetched_append (one two : Nat) (input : List UInt8) :
    fetched (one+two) input = fetched one input ++ fetched two (input.drop one) := by
  by_cases near : input.length ≤ one
  · have none : input.drop one = [] := List.drop_eq_nil_of_le near
    simp only [fetched,none,List.take_of_length_le near,List.take_of_length_le (Nat.le_trans near (Nat.le_add_right _ _)),
      List.take_nil,List.nil_append,List.length_nil,Nat.sub_zero,List.append_assoc,List.replicate_append_replicate]
    rw [show one-input.length+two = one+two-input.length by omega]
  · have far : one-input.length = 0 := by omega
    simp only [fetched,far,List.replicate_zero,List.append_nil,List.length_drop,List.take_add,List.append_assoc]
    rw [show two-(input.length-one) = one+two-input.length by omega]

theorem fetched_octet (size : Nat) (input : List UInt8) (inside : i < size) :
    (fetched size input).getD i 0 = input.getD i 0 := by
  by_cases near : i < input.length
  · rw [fetched,List.getD_append _ _ _ _ (by rw [List.length_take]; omega)]
    simp only [List.getD_eq_getElem?_getD,List.getElem?_take_of_lt inside]
  · rw [List.getD_eq_default _ _ (Nat.le_of_not_lt near),fetched,
      List.getD_append_right _ _ _ _ (by rw [List.length_take]; omega)]
    simp only [List.getD_eq_getElem?_getD,List.getElem?_replicate]
    split <;> rfl

def nonzero (octets : List UInt8) : Nat := octets.countP (· ≠ 0)

@[simp] theorem nonzero_append (left right : List UInt8) : nonzero (left ++ right) = nonzero left+nonzero right :=
  List.countP_append

@[simp] theorem nonzero_zeros (n : Nat) : nonzero (List.replicate n 0) = 0 := by
  rw [nonzero,List.countP_replicate]
  simp

theorem nonzero_none (none : nonzero octets = 0) : ∀ c ∈ octets, c = 0 := by
  intro c member
  have plain := List.countP_eq_zero.mp none c member
  simpa using plain

theorem nonzero_fetched (size : Nat) (input : List UInt8) : nonzero (fetched size input) = nonzero (input.take size) := by
  simp [fetched]

theorem first64 (n : UInt64) (rest : List UInt8) : field (put 8 n.toNat ++ rest) 0 8 = n.toNat := field_first rest n.toNat_lt
theorem first32 (n : UInt32) (rest : List UInt8) : field (put 4 n.toNat ++ rest) 0 4 = n.toNat := field_first rest n.toNat_lt
theorem first16 (n : UInt16) (rest : List UInt8) : field (put 2 n.toNat ++ rest) 0 2 = n.toNat := field_first rest n.toNat_lt

theorem codeOf_small (cmd : Cmd) : codeOf cmd < 256^4 := by
  cases cmd <;> decide

theorem field_cmd (h : MsgHead) : field (wireHead h) 36 4 = codeOf h.cmd := by
  have last := field_first [] (codeOf_small h.cmd)
  rw [List.append_nil] at last
  simp (disch := decide) only [wireHead,field_skip]
  exact last

theorem readHead_wire (h : MsgHead) : readHead (wireHead h) h.cmd = h := by
  simp (disch := decide) only [readHead,wireHead,field_skip,Nat.reduceSub,first64,first32,UInt64.ofNat_toNat,
    UInt32.ofNat_toNat]

theorem readPing_wire (p : MsgPing) : readPing (wireData (.ping p)) = p := by
  simp (disch := decide) only [readPing,wireData,field_skip,Nat.reduceSub,first64,first32,UInt64.ofNat_toNat,
    UInt32.ofNat_toNat,Int32.toInt32_toUInt32]

theorem readDeviceInfo_wire (p : MsgDeviceInfo) : readDeviceInfo (wireData (.deviceInfo p)) = p := by
  simp (disch := decide) only [readDeviceInfo,wireData,field_skip,field_zeros,Nat.reduceSub,first64,first32,first16,
    UInt64.ofNat_toNat,UInt32.ofNat_toNat,UInt16.ofNat_toNat,Int32.toInt32_toUInt32]

theorem put_u64 (inside : i+8 ≤ octets.length) : put 8 (UInt64.ofNat (field octets i 8)).toNat = slice octets i 8 := by
  rw [UInt64.toNat_ofNat',Nat.mod_eq_of_lt,put_field inside]
  exact field_lt inside

theorem put_u32 (inside : i+4 ≤ octets.length) : put 4 (UInt32.ofNat (field octets i 4)).toNat = slice octets i 4 := by
  rw [UInt32.toNat_ofNat',Nat.mod_eq_of_lt,put_field inside]
  exact field_lt inside

theorem put_u16 (inside : i+2 ≤ octets.length) : put 2 (UInt16.ofNat (field octets i 2)).toNat = slice octets i 2 := by
  rw [UInt16.toNat_ofNat',Nat.mod_eq_of_lt,put_field inside]
  exact field_lt inside

theorem wireHead_read (size : block.length = headSize) (cmd : Cmd) (announced : field block 36 4 = codeOf cmd) :
    wireHead (readHead block cmd) = block := by
  rw [headSize] at size
  have code : put 4 (codeOf cmd) = slice block 36 4 := by rw [← announced,put_field (by omega)]
  simp only [wireHead,readHead,put_u64 (show 0+8 ≤ block.length by omega),put_u64 (show 8+8 ≤ block.length by omega),
    put_u64 (show 16+8 ≤ block.length by omega),put_u64 (show 24+8 ≤ block.length by omega),
    put_u32 (show 32+4 ≤ block.length by omega),code]
  simp only [slice_append block 32 4 4,slice_append block 24 8 8,slice_append block 16 8 16,slice_append block 8 8 24,
    slice_append block 0 8 32,slice_all size]

theorem nonzero_ping (size : block.length = pingSize) : nonzero (wireData (.ping (readPing block))) ≤ nonzero block := by
  rw [pingSize] at size
  have split : block = slice block 0 8 ++ (slice block 8 4 ++ slice block 12 4) := by
    rw [slice_append block 8 4 4,slice_append block 0 8 8,slice_all size]
  simp only [wireData,readPing,put_u64 (show 0+8 ≤ block.length by omega),UInt32.toUInt32_toInt32,
    put_u32 (show 8+4 ≤ block.length by omega),nonzero_append,nonzero_zeros]
  conv => rhs; rw [split]
  simp only [nonzero_append]
  omega

theorem nonzero_deviceInfo (size : block.length = deviceInfoSize) :
    nonzero (wireData (.deviceInfo (readDeviceInfo block))) ≤ nonzero block := by
  rw [deviceInfoSize] at size
  have split : block = slice block 0 8 ++ (slice block 8 4 ++ (slice block 12 2 ++ (slice block 14 2 ++
      (slice block 16 4 ++ slice block 20 4)))) := by
    rw [slice_append block 16 4 4,slice_append block 14 2 8,slice_append block 12 2 10,slice_append block 8 4 12,
      slice_append block 0 8 16,slice_all size]
  simp only [wireData,readDeviceInfo,put_u64 (show 0+8 ≤ block.length by omega),UInt32.toUInt32_toInt32,
    put_u32 (show 8+4 ≤ block.length by omega),put_u16 (show 12+2 ≤ block.length by omega),
    put_u32 (show 16+4 ≤ block.length by omega),nonzero_append,nonzero_zeros]
  conv => rhs; rw [split]
  simp only [nonzero_append]
  omega

-- What one callback does with its input.
inductive Reads (request body : Bool) (input : List UInt8) : Option Msg → List UInt8 → Prop where
  | refused : request = false → Reads request body input none input
  | ignored : request = true → headSize ≤ k → Reads request body input none (input.drop k)
  | message : request = true → body = true → wireHead m.head = fetched headSize input →
      nonzero (wire m) ≤ nonzero (input.take (wire m).length) →
      Reads request body input (some m) (input.drop (wire m).length)

theorem reads_message (m : Msg) (head : wireHead m.head = fetched headSize input)
    (data : nonzero (wireData m.data) ≤ nonzero (fetched (sizeofData m.data) (input.drop headSize))) :
    Reads true true input (some m) ((input.drop headSize).drop (sizeofData m.data)) := by
  have count : nonzero (wire m) ≤ nonzero (input.take (wire m).length) := by
    rw [wire_length,← nonzero_fetched,fetched_append,nonzero_append,wire,nonzero_append,head]
    exact Nat.add_le_add_left data _
  rw [List.drop_drop,← wire_length]
  exact .message rfl rfl head count

theorem connRead_reads (request body : Bool) (input : List UInt8) :
    Reads request body input (connRead request body input).1 (connRead request body input).2 := by
  cases request with
  | false => exact .refused rfl
  | true =>
      have size := fetched_length headSize input
      simp only [connRead,if_true]
      split
      · rename_i cmd
        cases body with
        | false => exact .ignored rfl (Nat.le_refl _)
        | true =>
            exact reads_message ⟨_,.ping _⟩ (wireHead_read size .ping cmd) (nonzero_ping (fetched_length _ _))
      · rename_i cmd
        cases body with
        | false => exact .ignored rfl (Nat.le_refl _)
        | true =>
            exact reads_message ⟨_,.deviceInfo _⟩ (wireHead_read size .queryDeviceInfoRequest cmd)
              (nonzero_deviceInfo (fetched_length _ _))
      · exact .ignored rfl (Nat.le_refl _)

theorem connRead_whole (written : WellFormed m) (whole : fetched (wire m).length input = wire m) :
    connRead true true input = (some m,input.drop (wire m).length) := by
  rw [wire_length,fetched_append,wire] at whole
  obtain ⟨head,data⟩ := List.append_inj whole (by rw [fetched_length,wireHead_length])
  rw [wire_length,← List.drop_drop]
  cases written with
  | ping h p cmd size =>
      have code : field (wireHead h) 36 4 = 1 := by rw [field_cmd,cmd]; rfl
      have same := readHead_wire h
      rw [cmd] at same
      simp only [sizeofData] at head data ⊢
      simp only [connRead,if_true,head,code,data,same,readPing_wire]
  | query h p cmd size =>
      have code : field (wireHead h) 36 4 = 2 := by rw [field_cmd,cmd]; rfl
      have same := readHead_wire h
      rw [cmd] at same
      simp only [sizeofData] at head data ⊢
      simp only [connRead,if_true,head,code,data,same,readDeviceInfo_wire]

-- A message that reads like itself shifted behind zeros is zero throughout.
theorem shifted_zero (f : Nat → UInt8) (positive : 0 < e) (start : ∀ i < e, i ≤ n → f i = 0)
    (shift : ∀ i, e ≤ i → i ≤ n → f i = f (i-e)) : f n = 0 := by
  have all : ∀ i ≤ n, f i = 0 := by
    intro i
    induction i using Nat.strongRecOn with
    | ind i ih =>
        intro near
        by_cases early : i < e
        · exact start i early near
        · rw [shift i (by omega) near]
          exact ih (i-e) (by omega) (by omega)
  exact all n (Nat.le_refl n)

theorem wire_octet (m : Msg) (inside : i < headSize) : (wire m).getD i 0 = (wireHead m.head).getD i 0 := by
  rw [wire,List.getD_append _ _ _ _ (by rw [wireHead_length]; exact inside)]

theorem cmd_octet (written : WellFormed m) : (wire m).getD 36 0 ≠ 0 := by
  have octet : (wire m).getD 36 0 = UInt8.ofNat (codeOf m.head.cmd) := rfl
  rw [octet]
  cases written with
  | ping _ _ cmd => rw [cmd]; decide
  | query _ _ cmd => rw [cmd]; decide

theorem head_octet (head : wireHead m.head = fetched headSize input) (inside : i < headSize) :
    (wire m).getD i 0 = input.getD i 0 := by
  rw [wire_octet m inside,head,fetched_octet headSize input inside]

theorem head_arrived (written : WellFormed m) (head : wireHead m.head = fetched headSize input) : 36 < input.length := by
  by_contra short
  apply cmd_octet written
  rw [head_octet head (by decide),List.getD_eq_default _ _ (Nat.le_of_not_lt short)]

theorem wire_longer (m : Msg) : headSize ≤ (wire m).length := by
  rw [wire_length]
  exact Nat.le_add_right _ _

-- Once leading zeros of a message are lost, its head is never read again.
theorem dropped_misread (written : WellFormed m) (positive : 0 < e) (head : wireHead m.head = fetched headSize input)
    (split : wire m ++ more = List.replicate e 0 ++ (input ++ later)) : False := by
  have long := head_arrived written head
  have near := wire_longer m
  have whole : ∀ i ≤ 36, (wire m).getD i 0 = (List.replicate e 0 ++ (input ++ later)).getD i 0 := by
    intro i inside
    rw [← split,List.getD_append _ _ _ _ (by rw [headSize] at near; omega)]
  apply cmd_octet written
  apply shifted_zero (fun i => (wire m).getD i 0) positive
  · intro i early inside
    rw [whole i inside,List.getD_append _ _ _ _ (by simpa using early),List.getD_replicate 0 early]
  · intro i late inside
    rw [whole i inside,List.getD_append_right _ _ _ _ (by simpa using late),List.length_replicate,
      List.getD_append _ _ _ _ (by omega),head_octet head (by rw [headSize]; omega)]

-- Nor is it read right behind octets that should have gone with the last message.
theorem lagging_misread (written : WellFormed m) (positive : 0 < lag) (head : wireHead m.head = fetched headSize input)
    (split : List.replicate lag 0 ++ (wire m ++ more) = input ++ later) : False := by
  have long := head_arrived written head
  have near := wire_longer m
  have whole : ∀ i ≤ 36, (wire m).getD i 0 = (List.replicate lag 0 ++ (wire m ++ more)).getD i 0 := by
    intro i inside
    rw [head_octet head (by rw [headSize]; omega),split,List.getD_append _ _ _ _ (by omega)]
  apply cmd_octet written
  apply shifted_zero (fun i => (wire m).getD i 0) positive
  · intro i early inside
    rw [whole i inside,List.getD_append _ _ _ _ (by simpa using early),List.getD_replicate 0 early]
  · intro i late inside
    rw [whole i inside,List.getD_append_right _ _ _ _ (by simpa using late),List.length_replicate,
      List.getD_append _ _ _ _ (by rw [headSize] at near; omega)]

@[simp] theorem arrived_cons (seg : Segment) (rest : List Segment) : arrived (seg :: rest) = seg.octets ++ arrived rest := rfl

@[simp] theorem stream_cons (m : Msg) (rest : List Msg) : stream (m :: rest) = wire m ++ stream rest := rfl

theorem nonzero_take (octets : List UInt8) (k : Nat) : nonzero octets = nonzero (octets.take k)+nonzero (octets.drop k) := by
  rw [← nonzero_append,List.take_append_drop]

theorem handled_cons (input : List UInt8) (seg : Segment) (rest : List Segment) :
    handled input (seg :: rest) = (connRead seg.request seg.body (input ++ seg.octets)).1.toList ++
      handled (connRead seg.request seg.body (input ++ seg.octets)).2 rest := rfl

-- What is handed on was really received.
theorem handled_nonzero (input : List UInt8) (segs : List Segment) :
    nonzero (stream (handled input segs)) ≤ nonzero (input ++ arrived segs) := by
  induction segs generalizing input with
  | nil => simp [handled,stream,nonzero]
  | cons seg rest ih =>
      have reads := connRead_reads seg.request seg.body (input ++ seg.octets)
      rw [handled_cons,arrived_cons,← List.append_assoc]
      generalize connRead seg.request seg.body (input ++ seg.octets) = step at reads ⊢
      generalize input ++ seg.octets = input at reads ⊢
      obtain ⟨out,left⟩ := step
      have later := ih left
      simp only [nonzero_append] at later reads ⊢
      cases reads with
      | refused => exact later
      | ignored =>
          rename_i k _ _
          have split := nonzero_take input k
          simp only [Option.toList_none,List.nil_append]
          omega
      | @message m =>
          have split := nonzero_take input (wire m).length
          simp only [Option.toList_some,List.singleton_append,stream_cons,nonzero_append]
          omega

theorem zeros_of (none : nonzero octets = 0) : octets = List.replicate octets.length 0 :=
  List.eq_replicate_of_mem (nonzero_none none)

theorem nonzero_stream (split : stream messages = List.replicate e 0 ++ octets) :
    nonzero (stream messages) = nonzero octets := by
  rw [split,nonzero_append,nonzero_zeros,Nat.zero_add]

theorem handled_dropped (written : ∀ m ∈ messages, WellFormed m) (positive : 0 < e) (some : messages ≠ [])
    (split : stream messages = List.replicate e 0 ++ (input ++ arrived segs)) : handled input segs ≠ messages := by
  induction segs generalizing e input with
  | nil => exact some.symm
  | cons seg rest ih =>
      intro same
      have reads := connRead_reads seg.request seg.body (input ++ seg.octets)
      rw [handled_cons] at same
      rw [arrived_cons,← List.append_assoc input] at split
      generalize connRead seg.request seg.body (input ++ seg.octets) = step at reads same
      generalize input ++ seg.octets = input at reads split
      obtain ⟨out,left⟩ := step
      cases reads with
      | refused => exact ih positive split same
      | ignored =>
          rename_i k _ _
          have later := handled_nonzero (input.drop k) rest
          have same' : handled (input.drop k) rest = messages := by simpa using same
          -- every octet that is not zero is still needed, so these were all zeros
          rw [same',nonzero_stream split,nonzero_append,nonzero_append,nonzero_take input k] at later
          have zeros := zeros_of (show nonzero (input.take k) = 0 by omega)
          refine ih (?_ : 0 < e+(input.take k).length) ?_ same'
          · omega
          · rw [split,← List.replicate_append_replicate,List.append_assoc,← zeros,
              ← List.append_assoc (input.take k),List.take_append_drop]
      | @message m _ _ head =>
          rw [← same] at split written
          simp only [Option.toList_some,List.singleton_append,stream_cons] at split written
          exact dropped_misread (written m List.mem_cons_self) positive head split

theorem complete_fetched (split : wire m ++ more = input ++ later) (complete : Complete m input.length) :
    fetched (wire m).length input = wire m := by
  by_cases near : input.length ≤ (wire m).length
  · obtain ⟨tail,whole⟩ : ∃ tail, wire m = input ++ tail := by
      have front : input <+: wire m ++ more := ⟨later,split.symm⟩
      obtain ⟨tail,whole⟩ := List.prefix_of_prefix_length_le front (List.prefix_append (wire m) more) near
      exact ⟨tail,whole.symm⟩
    have zeros : tail = List.replicate tail.length 0 := by
      apply List.eq_replicate_of_mem
      intro c member
      exact complete c (by rw [whole,List.drop_left]; exact member)
    rw [fetched,List.take_of_length_le near,whole,List.length_append,Nat.add_sub_cancel_left,← zeros]
  · have far : (wire m).length ≤ input.length := Nat.le_of_not_le near
    have front : wire m <+: input ++ later := ⟨more,split⟩
    obtain ⟨tail,whole⟩ := List.prefix_of_prefix_length_le front (List.prefix_append input later) far
    rw [fetched,← whole,List.take_left,List.length_append,Nat.sub_eq_zero_of_le (Nat.le_add_right _ _)]
    simp

-- The cmd octet has to be there, so little of a message can lag behind.
theorem complete_far (written : WellFormed m) (complete : Complete m n) : 36 < n := by
  by_contra near
  apply cmd_octet written
  have long := wire_longer m
  rw [headSize] at long
  rw [List.getD_eq_getElem _ _ (by omega)]
  apply complete
  rw [List.mem_drop_iff_getElem]
  exact ⟨36-n,by omega,by congr 1; omega⟩

theorem connRead_zeros (body : Bool) (near : n ≤ 36) : connRead true body (List.replicate n 0) = (none,[]) := by
  have head : fetched headSize (List.replicate n 0) = List.replicate headSize 0 := by
    rw [fetched,List.take_replicate,List.length_replicate,List.replicate_append_replicate,headSize]
    congr 1
    omega
  have left : (List.replicate n (0 : UInt8)).drop headSize = [] :=
    List.drop_eq_nil_of_le (by rw [List.length_replicate,headSize]; omega)
  have code : field (List.replicate headSize 0) 36 4 = 0 := by decide
  simp only [connRead,if_true,head,left,code]

-- More is thrown away than the padding of the last message.
theorem ignored_lost (written : ∀ m ∈ messages, WellFormed m) (some : messages ≠ []) (past : lag < input.length)
    (near : lag < headSize) (far : headSize ≤ k)
    (split : List.replicate lag 0 ++ stream messages = input ++ arrived rest) :
    handled (input.drop k) rest ≠ messages := by
  intro same
  have later := handled_nonzero (input.drop k) rest
  have total := congrArg nonzero split
  simp only [nonzero_append,nonzero_zeros,Nat.zero_add] at total later
  rw [same,total,nonzero_take input k] at later
  have zeros := zeros_of (show nonzero (input.take k) = 0 by omega)
  have size : (input.take k).length = lag+((input.take k).length-lag) := by
    rw [List.length_take]
    omega
  refine handled_dropped written (?_ : 0 < (input.take k).length-lag) some ?_ same
  · rw [List.length_take]
    omega
  · apply (List.append_right_inj (List.replicate lag 0)).mp
    rw [split,← List.append_assoc,List.replicate_append_replicate,← size,← zeros,← List.append_assoc,
      List.take_append_drop]

theorem incomplete_lost (written : ∀ m ∈ messages, WellFormed m) (some : messages = m :: others)
    (past : lag < input.length) (near : lag < headSize)
    (split : List.replicate lag 0 ++ stream messages = input ++ arrived rest)
    (lost : ¬ (lag = 0 ∧ body = true ∧ Complete m input.length)) :
    (connRead true body input).1.toList ++ handled (connRead true body input).2 rest ≠ messages := by
  intro same
  have reads := connRead_reads true body input
  generalize connRead true body input = step at reads same
  obtain ⟨out,left⟩ := step
  cases reads with
  | refused impossible => cases impossible
  | ignored _ far => exact ignored_lost written (by rw [some]; exact List.cons_ne_nil _ _) past near far split same
  | @message m' _ granted head count =>
      simp only [Option.toList_some,List.singleton_append] at same
      rw [some] at split same written
      obtain ⟨rfl,followed⟩ := List.cons.inj same
      rw [stream_cons] at split
      rcases Nat.eq_zero_or_pos lag with rfl | positive
      · apply lost
        refine ⟨rfl,granted,?_⟩
        have later := handled_nonzero (input.drop (wire m').length) rest
        have total := congrArg nonzero split
        simp only [List.replicate_zero,List.nil_append,nonzero_append] at total later
        rw [followed] at later
        have cut := nonzero_take input (wire m').length
        -- the part of the message that was read holds all its octets that are not zero
        by_cases whole : (wire m').length ≤ input.length
        · intro c member
          rw [List.drop_eq_nil_of_le whole] at member
          cases member
        · have front : input <+: wire m' ++ stream others := ⟨arrived rest,by simpa using split.symm⟩
          obtain ⟨tail,shape⟩ := List.prefix_of_prefix_length_le front (List.prefix_append _ _)
            (Nat.le_of_not_le whole)
          rw [List.take_of_length_le (Nat.le_of_not_le whole)] at count
          have size := congrArg nonzero shape
          rw [nonzero_append] at size
          intro c member
          rw [← shape,List.drop_left] at member
          exact nonzero_none (by omega) c member
      · exact lagging_misread (written m' List.mem_cons_self) positive head split

theorem paced_refused (asked : seg.request = false) :
    Paced lag waiting (seg :: rest) messages ↔ Paced lag (waiting+seg.octets.length) rest messages := by
  constructor
  · intro paced
    cases paced with
    | refused _ later => exact later
    | padding granted => exact absurd (asked.symm.trans granted) (by decide)
    | message granted => exact absurd (asked.symm.trans granted) (by decide)
  · exact .refused asked

theorem paced_padding (written : ∀ m ∈ messages, WellFormed m) (asked : seg.request = true)
    (inside : waiting+seg.octets.length ≤ lag) :
    Paced lag waiting (seg :: rest) messages ↔ Paced (lag-(waiting+seg.octets.length)) 0 rest messages := by
  constructor
  · intro paced
    cases paced with
    | refused refused => exact absurd (refused.symm.trans asked) (by decide)
    | padding _ _ later => exact later
    | message _ _ complete =>
        have far := complete_far (written _ List.mem_cons_self) complete
        omega
  · exact .padding asked inside

theorem paced_message (asked : seg.request = true) (past : lag < waiting+seg.octets.length) :
    Paced lag waiting (seg :: rest) (m :: others) ↔
      (lag = 0 ∧ seg.body = true ∧ Complete m (waiting+seg.octets.length)) ∧
        Paced ((wire m).length-(waiting+seg.octets.length)) (waiting+seg.octets.length-(wire m).length) rest others := by
  constructor
  · intro paced
    cases paced with
    | refused refused => exact absurd (refused.symm.trans asked) (by decide)
    | padding _ inside => omega
    | message _ granted complete later => exact ⟨⟨rfl,granted,complete⟩,later⟩
  · rintro ⟨⟨rfl,granted,complete⟩,later⟩
    exact .message asked granted complete later

-- Induction over the segments. The octets still to come start with what is left of
-- the last message, which is zero.
theorem handled_paced (written : ∀ m ∈ messages, WellFormed m) (near : lag ≤ 36)
    (split : List.replicate lag 0 ++ stream messages = input ++ arrived segs) :
    handled input segs = messages ↔ Paced lag input.length segs messages := by
  induction segs generalizing lag input messages with
  | nil =>
      constructor
      · intro same
        cases same
        exact .done
      · intro paced
        cases paced
        rfl
  | cons seg rest ih =>
      rw [handled_cons]
      rw [arrived_cons,← List.append_assoc input] at split
      have size : input.length+seg.octets.length = (input ++ seg.octets).length := List.length_append.symm
      cases asked : seg.request with
      | false =>
          have step := ih written near split
          simp only [connRead,Bool.false_eq_true,if_false,Option.toList_none,List.nil_append]
          rw [paced_refused asked,step,size]
      | true =>
          generalize input ++ seg.octets = whole at split size ⊢
          by_cases inside : whole.length ≤ lag
          · have parts : lag = whole.length+(lag-whole.length) := by omega
            rw [parts,← List.replicate_append_replicate,List.append_assoc] at split
            obtain ⟨front,back⟩ := List.append_inj split (by rw [List.length_replicate])
            rw [← List.nil_append (arrived rest)] at back
            have step := ih written (by omega) back
            rw [← front,connRead_zeros _ (by omega)]
            simp only [Option.toList_none,List.nil_append]
            rw [paced_padding written asked (by omega),step,List.length_nil,size]
          · cases messages with
            | nil =>
                have lengths := congrArg List.length split
                simp only [stream,List.flatMap_nil,List.append_nil,List.length_replicate,List.length_append] at lengths
                omega
            | cons m others =>
                rw [paced_message asked (by omega),size]
                by_cases good : lag = 0 ∧ seg.body = true ∧ Complete m whole.length
                · obtain ⟨rfl,granted,complete⟩ := good
                  rw [List.replicate_zero,List.nil_append,stream_cons] at split
                  have fetch := complete_fetched split complete
                  have far := complete_far (written m List.mem_cons_self) complete
                  have long : (wire m).length ≤ 64 := by
                    rw [wire_length]
                    cases m.data <;> exact Nat.le_of_ble_eq_true rfl
                  have later : List.replicate ((wire m).length-whole.length) 0 ++ stream others =
                      whole.drop (wire m).length ++ arrived rest := by
                    apply (List.append_right_inj (whole.take (wire m).length)).mp
                    rw [← List.append_assoc,← List.append_assoc,List.take_append_drop,← split]
                    congr 1
                  have step := ih (fun l member => written l (List.mem_cons_of_mem _ member)) (by omega) later
                  rw [List.length_drop] at step
                  rw [granted,connRead_whole (written m List.mem_cons_self) fetch]
                  simp only [Option.toList_some,List.singleton_append,List.cons.injEq,true_and,step]
                  constructor
                  · intro paced
                    exact ⟨complete,paced⟩
                  · intro right
                    exact right.2
                · constructor
                  · intro same
                    exact absurd same (incomplete_lost written rfl (by omega) (by rw [headSize]; omega) split good)
                  · intro right
                    exact absurd right.1 good

theorem framing_paced (written : ∀ m ∈ messages, WellFormed m) (cut : arrived segs = stream messages) :
    handled [] segs = messages ↔ Paced 0 0 segs messages :=
  handled_paced written (Nat.zero_le _) (by simpa using cut.symm)

def ping1111 : Msg := ⟨⟨p2pTransferMagic,0,1111,0,sizeofMsgPing,.ping⟩,.ping ⟨1111,4⟩⟩

theorem ping1111_written : ∀ m ∈ [ping1111], WellFormed m := by
  intro m member
  rw [List.mem_singleton.mp member]
  exact .ping _ _ rfl rfl

-- The last four octets of a PING are padding and may come later.
theorem framing_paced_padding :
    handled [] [⟨(wire ping1111).take 52,true,true⟩,⟨(wire ping1111).drop 52,true,true⟩] = [ping1111] := by
  apply (framing_paced ping1111_written (by decide)).mpr
  refine .message rfl rfl ?_ (.padding rfl (by decide) .done)
  have zeros : ((wire ping1111).drop 52).all (· == 0) = true := by decide
  intro c member
  exact beq_iff_eq.mp (List.all_eq_true.mp zeros c member)

-- A head cut in two is taken for two heads without a cmd.
theorem cut_head_lost :
    (∀ m ∈ [ping1111], WellFormed m) ∧
      arrived [⟨(wire ping1111).take 20,true,true⟩,⟨(wire ping1111).drop 20,true,true⟩] = stream [ping1111] ∧
      handled [] [⟨(wire ping1111).take 20,true,true⟩,⟨(wire ping1111).drop 20,true,true⟩] = [] ∧
      handled [] [⟨(wire ping1111).take 20,true,true⟩,⟨(wire ping1111).drop 20,true,true⟩] ≠ [ping1111] := by
  have lost : handled [] [⟨(wire ping1111).take 20,true,true⟩,⟨(wire ping1111).drop 20,true,true⟩] = [] := by decide
  refine ⟨ping1111_written,by decide,lost,?_⟩
  rw [lost]
  exact List.ne_cons_self

end PersonalJournal.Framing
