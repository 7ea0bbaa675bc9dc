import Brf.Model.HelperCalls

/-! # Program types

How the tables of the source become program types, with two of their entries. -/

namespace Brf.HelperCalls

/-- The helpers of a list of prototypes; of several with one number the first counts. -/
def registerHelpers (protos : List Proto) : List BpfHelper :=
  (protos.map helperFuncMap).foldl (fun hs h => if hs.any (·.enum = h.enum) then hs else hs ++ [h]) []

def fieldPos (fields : List String) (f : String) : ℤ :=
  match fieldIdx fields f with
  | some i => i
  | none => -1

/-- The entry that decides on the access to the field at position `i`. -/
def getCtxAccessAttr (fields : List String) (accesses : List BpfCtxAccessAttr) (i : ℕ)
    (isWrite : Bool) : Option BpfCtxAccessAttr :=
  accesses.find? fun fi => fi.canWrite == isWrite &&
    match fi.rangeInCtx with
    | [f] => fieldPos fields f = i || f = "default"
    | [f, g] => fieldPos fields f ≤ i && (i : ℤ) ≤ fieldPos fields g || f = "default"
    | f :: _ => f = "default"
    | [] => false

/-- Two entries for each field of the context: how it is read and how it is written. -/
def initAccesses (fields : List String) (accesses : List BpfCtxAccessAttr) :
    List BpfCtxAccessAttr :=
  fields.zipIdx.flatMap fun fi =>
    [(getCtxAccessAttr fields accesses fi.2 false).getD ⟨[fi.1, fi.1], false, false⟩,
      (getCtxAccessAttr fields accesses fi.2 true).getD ⟨[fi.1, fi.1], false, false⟩]

def cgroupSockAddrFields : List String :=
  ["user_family", "user_ip4", "user_ip6", "user_port", "family", "type", "protocol",
    "msg_src_ip4", "msg_src_ip6", "sk"]

def cgroupSockAddrAccess : BpfCtxAccess where
  regTypeMap := [("PTR_TO_SOCKET", ["sk"])]
  accesses := initAccesses cgroupSockAddrFields [
    ⟨["user_ip4", "user_ip4"], true, false⟩, ⟨["user_ip6[0]", "user_ip6[3]"], true, false⟩,
    ⟨["msg_src_ip4", "msg_src_ip4"], true, false⟩,
    ⟨["msg_src_ip6[0]", "msg_src_ip6[3]"], true, false⟩,
    ⟨["user_ip4", "user_ip4"], false, true⟩, ⟨["user_ip6[0]", "user_ip6[3]"], false, true⟩,
    ⟨["msg_src_ip4", "msg_src_ip4"], false, true⟩,
    ⟨["msg_src_ip6[0]", "msg_src_ip6[3]"], false, true⟩,
    ⟨["sk"], true, false⟩, ⟨["default"], true, false⟩]
  scalarFree := by decide
  metaField := by decide
  packetField := by decide

def cgroupSockAddr : BpfProgType where
  user := "struct bpf_sock_addr"
  enum := .cgroupSockAddr
  secDefs := ["cgroup/bind4", "cgroup/bind6", "cgroup/connect4", "cgroup/connect6",
    "cgroup/sendmsg4", "cgroup/sendmsg6", "cgroup/recvmsg4", "cgroup/recvmsg6",
    "cgroup/getpeername4", "cgroup/getpeername6", "cgroup/getsockname4",
    "cgroup/getsockname6"].map (⟨·, none, false⟩)
  helpers := registerHelpers [
    .bpfGetCurrentUidGid, .bpfBind, .bpfGetSocketCookieSockAddr, .bpfGetNetnsCookieSockAddr,
    .bpfGetLocalStorage, .bpfEventOutputData, .bpfGetCurrentPidTgid, .bpfGetCurrentComm,
    .bpfGetCurrentCgroupId, .bpfGetCurrentAncestorCgroupId, .bpfGetCgroupClassidCurr,
    .bpfSockAddrSkLookupTcp, .bpfSockAddrSkLookupUdp, .bpfSkRelease, .bpfSockAddrSkcLookupTcp,
    .bpfSkStorageGet, .bpfSkStorageDelete, .bpfSockAddrSetsockopt, .bpfSockAddrGetsockopt,
    .bpfSkcToTcp6Sock, .bpfSkcToTcpSock, .bpfSkcToTcpTimewaitSock, .bpfSkcToTcpRequestSock,
    .bpfSkcToUdp6Sock, .bpfKtimeGetCoarseNs, .bpfMapLookupElem, .bpfMapUpdateElem,
    .bpfMapDeleteElem, .bpfMapPushElem, .bpfMapPopElem, .bpfMapPeekElem, .bpfGetPrandomU32,
    .bpfGetRawSmpProcessorId, .bpfGetNumaNodeId, .bpfTailCall, .bpfKtimeGetNs, .bpfKtimeGetBootNs,
    .bpfRingbufOutput, .bpfRingbufReserve, .bpfRingbufSubmit, .bpfRingbufDiscard, .bpfRingbufQuery,
    .bpfForEachMapElem, .bpfSpinLock, .bpfSpinUnlock, .bpfJiffies64, .bpfPerCpuPtr, .bpfThisCpuPtr,
    .bpfTimerInit, .bpfTimerSetCallback, .bpfTimerStart, .bpfTimerCancel, .bpfTracePrintk,
    .bpfGetCurrentTask, .bpfGetCurrentTaskBtf, .bpfProbeReadUser, .bpfProbeReadKernel,
    .bpfProbeReadUserStr, .bpfProbeReadKernelStr, .bpfSnprintfBtf, .bpfSnprintf, .bpfTaskPtRegs]
  ctxAccess := cgroupSockAddrAccess
  ctxStruct := some cgroupSockAddrFields

def netfilterAccess : BpfCtxAccess where
  regTypeMap := [("PTR_TO_BTF_ID", ["state", "skb"])]
  accesses := initAccesses ["state", "skb"]
    [⟨["state", "state"], true, false⟩, ⟨["skb", "skb"], true, false⟩]
  scalarFree := by decide
  metaField := by decide
  packetField := by decide

def netfilter : BpfProgType where
  user := "struct bpf_nf_ctx"
  enum := .netfilter
  secDefs := [⟨"netfilter", none, false⟩]
  helpers := registerHelpers [
    .bpfMapLookupElem, .bpfMapUpdateElem, .bpfMapDeleteElem, .bpfMapPushElem, .bpfMapPopElem,
    .bpfMapPeekElem, .bpfGetPrandomU32, .bpfGetRawSmpProcessorId, .bpfGetNumaNodeId, .bpfTailCall,
    .bpfKtimeGetNs, .bpfKtimeGetBootNs, .bpfRingbufOutput, .bpfRingbufReserve, .bpfRingbufSubmit,
    .bpfRingbufDiscard, .bpfRingbufQuery, .bpfGetCurrentPidTgid, .bpfGetCurrentUidGid, .bpfSpinLock,
    .bpfSpinUnlock, .bpfJiffies64, .bpfPerCpuPtr, .bpfThisCpuPtr, .bpfTimerInit,
    .bpfTimerSetCallback, .bpfTimerStart, .bpfTimerCancel, .bpfForEachMapElem, .bpfCgrpStorageGet,
    .bpfCgrpStorageDelete, .bpfGetCurrentCgroupId, .bpfGetCurrentAncestorCgroupId,
    .bpfCurrentTaskUnderCgroup, .bpfTracePrintk, .bpfGetCurrentTask, .bpfGetCurrentTaskBtf,
    .bpfGetCurrentComm, .bpfProbeReadUser, .bpfProbeReadKernel, .bpfProbeReadUserStr,
    .bpfProbeReadKernelStr, .bpfSnprintfBtf, .bpfSnprintf, .bpfTaskPtRegs]
  ctxAccess := netfilterAccess
  ctxStruct := some ["state", "skb"]

end Brf.HelperCalls
