import PersonalJournal.Lib.Loop
import PersonalJournal.Lib.Walk
import PersonalJournal.Dns.ReadName
import PersonalJournal.Dns.NameWalk
import PersonalJournal.Dns.Query
import PersonalJournal.Dns.Nat64
import PersonalJournal.Dns.Answer
import PersonalJournal.Dns.RecordWalk
import PersonalJournal.Dns.Bounds
import PersonalJournal.Dns.Alignment
import PersonalJournal.Dns.Provenance
import PersonalJournal.Dns.Getaddrinfo
import PersonalJournal.Dns.SingleServer
import PersonalJournal.Dns.Resolver
import PersonalJournal.Dns.FailureReport
import PersonalJournal.Dns.Publication
import PersonalJournal.Dns.ServerChoice
import PersonalJournal.Dns.Completion
import PersonalJournal.P2p.Registry
import PersonalJournal.P2p.Network
import PersonalJournal.P2p.Framing
import PersonalJournal.P2p.Server
import PersonalJournal.Dns.Waiting
import PersonalJournal.Dns.LockBalance
import PersonalJournal.Rfc6052.Synthesis
import PersonalJournal.Lib.Lines
import PersonalJournal.Rfc6052.Confload
import PersonalJournal.P2p.Teardown
import PersonalJournal.Dns.TrailingDots
import PersonalJournal.Dns.AllocationFailure
import PersonalJournal.Dns.Ipv4Lookup
import PersonalJournal.Dns.NameBuffer
import PersonalJournal.P2p.RegistryScan
import PersonalJournal.P2p.Log
import PersonalJournal.P2p.DeviceRing
import PersonalJournal.Dns.DualStack
import PersonalJournal.Dns.Nat64Prefix
import PersonalJournal.Rfc6052.Translator
import PersonalJournal.P2p.ServerHeap
import PersonalJournal.Dns.AnswerHeap
import PersonalJournal.Dns.RecvWithinTime
import PersonalJournal.P2p.Transport
import PersonalJournal.P2p.LogStream
import PersonalJournal.P2p.Introduction
import PersonalJournal.P2p.Streams
