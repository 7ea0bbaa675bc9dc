import Mathlib.Data.List.Basic

/-! # Catalogue of helpers

The enumerations of the helper-call generator and the table `helperFuncMap` of helper
prototypes that program types draw from. -/

namespace Brf.HelperCalls

inductive ProgTypeEnum where
  | unspec | socketFilter | kprobe | schedCls | schedAct | tracepoint | xdp | perfEvent
  | cgroupSkb | cgroupSock | lwtIn | lwtOut | lwtXmit | sockOps | skSkb | cgroupDevice | skMsg
  | rawTracepoint | cgroupSockAddr | lwtSeg6local | lircMode2 | skReuseport | flowDissector
  | cgroupSysctl | rawTracepointWritable | cgroupSockopt | tracing | structOps | ext | lsm
  | skLookup | syscall | netfilter | max
  deriving DecidableEq

inductive HelperEnum where
  | unspec | mapLookupElem | mapUpdateElem | mapDeleteElem | probeRead | ktimeGetNs
  | tracePrintk | getPrandomU32 | getSmpProcessorId | skbStoreBytes | l3CsumReplace
  | l4CsumReplace | tailCall | cloneRedirect | getCurrentPidTgid | getCurrentUidGid
  | getCurrentComm | getCgroupClassid | skbVlanPush | skbVlanPop | skbGetTunnelKey
  | skbSetTunnelKey | perfEventRead | redirect | getRouteRealm | perfEventOutput | skbLoadBytes
  | getStackid | csumDiff | skbGetTunnelOpt | skbSetTunnelOpt | skbChangeProto | skbChangeType
  | skbUnderCgroup | getHashRecalc | getCurrentTask | probeWriteUser | currentTaskUnderCgroup
  | skbChangeTail | skbPullData | csumUpdate | setHashInvalid | getNumaNodeId | skbChangeHead
  | xdpAdjustHead | probeReadStr | getSocketCookie | getSocketUid | setHash | setsockopt
  | skbAdjustRoom | redirectMap | skRedirectMap | sockMapUpdate | xdpAdjustMeta
  | perfEventReadValue | perfProgReadValue | getsockopt | overrideReturn | sockOpsCbFlagsSet
  | msgRedirectMap | msgApplyBytes | msgCorkBytes | msgPullData | bind | xdpAdjustTail
  | skbGetXfrmState | getStack | skbLoadBytesRelative | fibLookup | sockHashUpdate
  | msgRedirectHash | skRedirectHash | lwtPushEncap | lwtSeg6StoreBytes | lwtSeg6AdjustSrh
  | lwtSeg6Action | rcRepeat | rcKeydown | skbCgroupId | getCurrentCgroupId | getLocalStorage
  | skSelectReuseport | skbAncestorCgroupId | skLookupTcp | skLookupUdp | skRelease
  | mapPushElem | mapPopElem | mapPeekElem | msgPushData | msgPopData | rcPointerRel | spinLock
  | spinUnlock | skFullsock | tcpSock | skbEcnSetCe | getListenerSock | skcLookupTcp
  | tcpCheckSyncookie | sysctlGetName | sysctlGetCurrentValue | sysctlGetNewValue
  | sysctlSetNewValue | strtol | strtoul | skStorageGet | skStorageDelete | sendSignal
  | tcpGenSyncookie | skbOutput | probeReadUser | probeReadKernel | probeReadUserStr
  | probeReadKernelStr | tcpSendAck | sendSignalThread | jiffies64 | readBranchRecords
  | getNsCurrentPidTgid | xdpOutput | getNetnsCookie | getCurrentAncestorCgroupId | skAssign
  | ktimeGetBootNs | seqPrintf | seqWrite | skCgroupId | skAncestorCgroupId | ringbufOutput
  | ringbufReserve | ringbufSubmit | ringbufDiscard | ringbufQuery | csumLevel | skcToTcp6Sock
  | skcToTcpSock | skcToTcpTimewaitSock | skcToTcpRequestSock | skcToUdp6Sock | getTaskStack
  | loadHdrOpt | storeHdrOpt | reserveHdrOpt | inodeStorageGet | inodeStorageDelete | dPath
  | copyFromUser | snprintfBtf | seqPrintfBtf | skbCgroupClassid | redirectNeigh | perCpuPtr
  | thisCpuPtr | redirectPeer | taskStorageGet | taskStorageDelete | getCurrentTaskBtf
  | bprmOptsSet | ktimeGetCoarseNs | imaInodeHash | sockFromFile | checkMtu | forEachMapElem
  | snprintf | sysBpf | btfFindByNameKind | sysClose | timerInit | timerSetCallback | timerStart
  | timerCancel | getFuncIp | getAttachCookie | taskPtRegs | getBranchSnapshot | traceVprintk
  | skcToUnixSock | kallsymsLookupName | findVma | loop | strncmp | getFuncArg | getFuncRet
  | getFuncArgCnt | getRetval | setRetval | xdpGetBuffLen | xdpLoadBytes | xdpStoreBytes
  | copyFromUserTask | skbSetTstamp | imaFileHash | kptrXchg | mapLookupPercpuElem
  | skcToMptcpSock | dynptrFromMem | ringbufReserveDynptr | ringbufSubmitDynptr
  | ringbufDiscardDynptr | dynptrRead | dynptrWrite | dynptrData | tcpRawGenSyncookieIpv4
  | tcpRawGenSyncookieIpv6 | tcpRawCheckSyncookieIpv4 | tcpRawCheckSyncookieIpv6 | ktimeGetTaiNs
  | userRingbufDrain | cgrpStorageGet | cgrpStorageDelete | xdpFibLookupProto
  | xdpGetBuffLenProto | xdpLoadBytesProto | xdpStoreBytesProto | sockHashUpdateProto
  deriving DecidableEq

inductive ArgType where
  | anything | ptrToMapKey | ptrToMapValue | ptrToUninitMapValue | ptrToMapValueOrNull
  | constSize | constSizeOrZero | constAllocSizeOrZero | constMapPtr | ptrToCtx | ptrToCtxOrNull
  | ptrToSockCommon | ptrToBtfIdSockCommon | ptrToSocket | ptrToSocketOrNull | ptrToBtfId
  | ptrToBtfIdOrNull | ptrToSpinLock | ptrToMem | ptrToMemOrNull | ptrToUninitMem
  | ptrToFixedSizeMem | ptrToAllocMem | ptrToAllocMemOrNull | ptrToInt | ptrToLong
  | ptrToPercpuBtfId | ptrToFunc | ptrToStackOrNull | ptrToConstStr | ptrToTimer
  deriving DecidableEq

def ArgType.name : ArgType → String
  | anything => "ARG_ANYTHING"
  | ptrToMapKey => "ARG_PTR_TO_MAP_KEY"
  | ptrToMapValue => "ARG_PTR_TO_MAP_VALUE"
  | ptrToUninitMapValue => "ARG_PTR_TO_UNINIT_MAP_VALUE"
  | ptrToMapValueOrNull => "ARG_PTR_TO_MAP_VALUE_OR_NULL"
  | constSize => "ARG_CONST_SIZE"
  | constSizeOrZero => "ARG_CONST_SIZE_OR_ZERO"
  | constAllocSizeOrZero => "ARG_CONST_ALLOC_SIZE_OR_ZERO"
  | constMapPtr => "ARG_CONST_MAP_PTR"
  | ptrToCtx => "ARG_PTR_TO_CTX"
  | ptrToCtxOrNull => "ARG_PTR_TO_CTX_OR_NULL"
  | ptrToSockCommon => "ARG_PTR_TO_SOCK_COMMON"
  | ptrToBtfIdSockCommon => "ARG_PTR_TO_BTF_ID_SOCK_COMMON"
  | ptrToSocket => "ARG_PTR_TO_SOCKET"
  | ptrToSocketOrNull => "ARG_PTR_TO_SOCKET_OR_NULL"
  | ptrToBtfId => "ARG_PTR_TO_BTF_ID"
  | ptrToBtfIdOrNull => "ARG_PTR_TO_BTF_ID_OR_NULL"
  | ptrToSpinLock => "ARG_PTR_TO_SPIN_LOCK"
  | ptrToMem => "ARG_PTR_TO_MEM"
  | ptrToMemOrNull => "ARG_PTR_TO_MEM_OR_NULL"
  | ptrToUninitMem => "ARG_PTR_TO_UNINIT_MEM"
  | ptrToFixedSizeMem => "ARG_PTR_TO_FIXED_SIZE_MEM"
  | ptrToAllocMem => "ARG_PTR_TO_ALLOC_MEM"
  | ptrToAllocMemOrNull => "ARG_PTR_TO_ALLOC_MEM_OR_NULL"
  | ptrToInt => "ARG_PTR_TO_INT"
  | ptrToLong => "ARG_PTR_TO_LONG"
  | ptrToPercpuBtfId => "ARG_PTR_TO_PERCPU_BTF_ID"
  | ptrToFunc => "ARG_PTR_TO_FUNC"
  | ptrToStackOrNull => "ARG_PTR_TO_STACK_OR_NULL"
  | ptrToConstStr => "ARG_PTR_TO_CONST_STR"
  | ptrToTimer => "ARG_PTR_TO_TIMER"

inductive RetType where
  | integer | void | ptrToMapValue | ptrToMapValueOrNull | ptrToSocketOrNull
  | ptrToTcpSockOrNull | ptrToSockCommonOrNull | ptrToAllocMemOrNull | ptrToBtfIdOrNull
  | ptrToMemOrBtfIdOrNull | ptrToMemOrBtfId | ptrToBtfId
  deriving DecidableEq

inductive RegType where
  | scalarValue | ptrToCtx | constPtrToMap | ptrToMapValue | ptrToStack | ptrToPacketMeta
  | ptrToPacket | ptrToPacketEnd | ptrToFlowKeys | ptrToSocket | ptrToSockCommon | ptrToTcpSock
  | ptrToTpBuffer | ptrToXdpSock | ptrToBtfId | ptrToMem | ptrToRdonlyBuf | ptrToRdwrBuf
  | ptrToPercpuBtfId | ptrToFunc | ptrToMapKey
  deriving DecidableEq

def RegType.name : RegType → String
  | scalarValue => "SCALAR_VALUE"
  | ptrToCtx => "PTR_TO_CTX"
  | constPtrToMap => "CONST_PTR_TO_MAP"
  | ptrToMapValue => "PTR_TO_MAP_VALUE"
  | ptrToStack => "PTR_TO_STACK"
  | ptrToPacketMeta => "PTR_TO_PACKET_META"
  | ptrToPacket => "PTR_TO_PACKET"
  | ptrToPacketEnd => "PTR_TO_PACKET_END"
  | ptrToFlowKeys => "PTR_TO_FLOW_KEYS"
  | ptrToSocket => "PTR_TO_SOCKET"
  | ptrToSockCommon => "PTR_TO_SOCK_COMMON"
  | ptrToTcpSock => "PTR_TO_TCP_SOCK"
  | ptrToTpBuffer => "PTR_TO_TP_BUFFER"
  | ptrToXdpSock => "PTR_TO_XDP_SOCK"
  | ptrToBtfId => "PTR_TO_BTF_ID"
  | ptrToMem => "PTR_TO_ALLOC_MEM"
  | ptrToRdonlyBuf => "PTR_TO_RDONLY_BUF"
  | ptrToRdwrBuf => "PTR_TO_RDWR_BUF"
  | ptrToPercpuBtfId => "PTR_TO_PERCPU_BTF_ID"
  | ptrToFunc => "PTR_TO_FUNC"
  | ptrToMapKey => "PTR_TO_MAP_KEY"

structure BpfHelper where
  uname : String
  enum : HelperEnum
  args : List ArgType
  argBtfIds : List String
  ret : RetType
  retBtfId : String
  pktAccess : Bool
  deriving DecidableEq

inductive Proto where
  | bpfMapLookupElem | bpfMapUpdateElem | bpfMapDeleteElem | bpfProbeReadCompat | bpfKtimeGetNs
  | bpfTracePrintk | bpfGetPrandomU32 | bpfGetSmpProcessorId | bpfGetRawSmpProcessorId
  | bpfSkbStoreBytes | bpfL3CsumReplace | bpfL4CsumReplace | bpfTailCall | bpfCloneRedirect
  | bpfGetCurrentPidTgid | bpfGetCurrentUidGid | bpfGetCurrentComm | bpfGetCgroupClassid
  | bpfGetCgroupClassidCurr | bpfSkbVlanPush | bpfSkbVlanPop | bpfSkbGetTunnelKey
  | bpfSkbSetTunnelKey | bpfPerfEventRead | bpfRedirect | bpfXdpRedirect | bpfGetRouteRealm
  | bpfPerfEventOutput | bpfEventOutputData | bpfSkbEventOutput | bpfXdpEventOutput
  | bpfPerfEventOutputProtoTp | bpfPerfEventOutputProtoRawTp | bpfSkbLoadBytes
  | bpfFlowDissectorLoadBytes | skReuseportLoadBytes | bpfGetStackid | bpfGetStackidProtoPe
  | bpfGetStackidProtoTp | bpfGetStackidProtoRawTp | bpfCsumDiff | bpfSkbGetTunnelOpt
  | bpfSkbSetTunnelOpt | bpfSkbChangeProto | bpfSkbChangeType | bpfSkbUnderCgroup | bpfGetHashRecalc
  | bpfGetCurrentTask | bpfProbeWriteUser | bpfCurrentTaskUnderCgroup | bpfSkbChangeTail
  | skSkbChangeTail | bpfSkbPullData | skSkbPullData | bpfCsumUpdate | bpfSetHashInvalid
  | bpfGetNumaNodeId | bpfSkbChangeHead | skSkbChangeHead | bpfXdpAdjustHead | bpfProbeReadCompatStr
  | bpfGetSocketCookie | bpfGetSocketCookieSockAddr | bpfGetSocketCookieSock
  | bpfGetSocketCookieSockOps | bpfGetSocketPtrCookie | bpfGetSocketUid | bpfSetHash
  | bpfSockOpsSetsockopt | bpfSkSetsockopt | bpfSockAddrSetsockopt | bpfSkbAdjustRoom
  | skSkbAdjustRoom | bpfXdpRedirectMap | bpfSkRedirectMap | bpfSockMapUpdate | bpfXdpAdjustMeta
  | bpfPerfEventReadValue | bpfPerfProgReadValue | bpfSockOpsGetsockopt | bpfSkGetsockopt
  | bpfSockAddrGetsockopt | bpfOverrideReturn | bpfSockOpsCbFlagsSet | bpfMsgRedirectMap
  | bpfMsgApplyBytes | bpfMsgCorkBytes | bpfMsgPullData | bpfBind | bpfXdpAdjustTail
  | bpfSkbGetXfrmState | bpfGetStack | bpfGetStackProtoRawTp | bpfGetStackProtoTp
  | bpfGetStackProtoPe | bpfSkbLoadBytesRelative | skReuseportLoadBytesRelative | bpfSkbFibLookup
  | bpfXdpFibLookup | bpfXdpGetBuffLen | bpfXdpLoadBytes | bpfXdpStoreBytes | bpfSockHashUpdate
  | bpfMsgRedirectHash | bpfSkRedirectHash | bpfLwtInPushEncap | bpfLwtXmitPushEncap
  | bpfLwtSeg6StoreBytes | bpfLwtSeg6AdjustSrh | bpfLwtSeg6Action | rcRepeat | rcKeydown
  | bpfSkbCgroupId | bpfGetCurrentCgroupId | bpfGetLocalStorage | skSelectReuseport
  | bpfSkbAncestorCgroupId | bpfSkLookupTcp | bpfXdpSkLookupTcp | bpfSockAddrSkLookupTcp
  | bpfSkLookupUdp | bpfXdpSkLookupUdp | bpfSockAddrSkLookupUdp | bpfSkRelease | bpfMapPushElem
  | bpfMapPopElem | bpfMapPeekElem | bpfMsgPushData | bpfMsgPopData | rcPointerRel | bpfSpinLock
  | bpfSpinUnlock | bpfSkFullsock | bpfTcpSock | bpfSkbEcnSetCe | bpfGetListenerSock
  | bpfSkcLookupTcp | bpfXdpSkcLookupTcp | bpfSockAddrSkcLookupTcp | bpfTcpCheckSyncookie
  | bpfSysctlGetName | bpfSysctlGetCurrentValue | bpfSysctlGetNewValue | bpfSysctlSetNewValue
  | bpfStrtol | bpfStrtoul | bpfSkStorageGet | bpfSkStorageGetCgSock | bpfSkStorageGetTracing
  | bpfSkStorageDelete | bpfSkStorageDeleteTracing | bpfSendSignal | bpfTcpGenSyncookie
  | bpfSkbOutput | bpfProbeReadUser | bpfProbeReadKernel | bpfProbeReadUserStr
  | bpfProbeReadKernelStr | bpfTcpSendAck | bpfSendSignalThread | bpfJiffies64
  | bpfReadBranchRecords | bpfGetNsCurrentPidTgid | bpfXdpOutput | bpfGetNetnsCookieSockAddr
  | bpfGetNetnsCookieSock | bpfGetNetnsCookieSockOps | bpfGetNetnsCookieSkMsg
  | bpfGetNetnsCookieSockopt | bpfGetCurrentAncestorCgroupId | bpfSkAssign | bpfSkLookupAssign
  | bpfKtimeGetBootNs | bpfSeqPrintf | bpfSeqWrite | bpfSkCgroupId | bpfSkAncestorCgroupId
  | bpfRingbufOutput | bpfRingbufReserve | bpfRingbufSubmit | bpfRingbufDiscard | bpfRingbufQuery
  | bpfCsumLevel | bpfSkcToTcp6Sock | bpfSkcToTcpSock | bpfSkcToTcpTimewaitSock
  | bpfSkcToTcpRequestSock | bpfSkcToUdp6Sock | bpfGetTaskStack | bpfSockOpsLoadHdrOpt
  | bpfSockOpsStoreHdrOpt | bpfSockOpsReserveHdrOpt | bpfInodeStorageGet | bpfInodeStorageDelete
  | bpfDPath | bpfCopyFromUser | bpfSnprintfBtf | bpfSeqPrintfBtf | bpfSkbCgroupClassid
  | bpfRedirectNeigh | bpfPerCpuPtr | bpfThisCpuPtr | bpfRedirectPeer | bpfTaskStorageGet
  | bpfTaskStorageDelete | bpfGetCurrentTaskBtf | bpfBprmOptsSet | bpfKtimeGetCoarseNs
  | bpfImaInodeHash | bpfSockFromFile | bpfSkbCheckMtu | bpfXdpCheckMtu | bpfForEachMapElem
  | bpfSnprintf | bpfSysBpf | bpfBtfFindByNameKind | bpfSysClose | bpfKallsymsLookupName
  | bpfTimerInit | bpfTimerSetCallback | bpfTimerStart | bpfTimerCancel | bpfGetFuncIpProtoKprobe
  | bpfGetFuncIpProtoTracing | bpfGetAttachCookieProtoTrace | bpfGetAttachCookieProtoPe
  | bpfTaskPtRegs | bpfCgrpStorageGet | bpfCgrpStorageDelete | bpfImaFileHash
  | bpfGetAttachCookieProtoLsm | bpfUnlockedSkSetsockopt | bpfUnlockedSkGetsockopt | bpfGetRetval
  | bpfSetRetval | bpfKptrXchg | bpfLoop | bpfUserRingbufDrain | bpfStrncmp | bpfKtimeGetTaiNs
  deriving DecidableEq

/-- An entry of the table: most return an integer and name no BTF type. -/
abbrev BpfHelper.entry (uname : String) (enum : HelperEnum) (args : List ArgType)
    (argBtfIds : List String := []) (ret : RetType := .integer) (retBtfId : String := "")
    (pktAccess : Bool := false) : BpfHelper :=
  ⟨uname, enum, args, argBtfIds, ret, retBtfId, pktAccess⟩

open Proto HelperEnum ArgType BpfHelper in
def helperFuncMap : Proto → BpfHelper
  | bpfMapLookupElem => entry "bpf_map_lookup_elem" mapLookupElem [constMapPtr, ptrToMapKey] []
    .ptrToMapValueOrNull "" true
  | bpfMapUpdateElem => entry "bpf_map_update_elem" mapUpdateElem [constMapPtr, ptrToMapKey,
    ptrToMapValue, anything] [] .integer "" true
  | bpfMapDeleteElem => entry "bpf_map_delete_elem" mapDeleteElem [constMapPtr, ptrToMapKey] []
    .integer "" true
  | bpfProbeReadCompat => entry "bpf_probe_read" probeRead [ptrToUninitMem, constSizeOrZero,
    anything]
  | bpfKtimeGetNs => entry "bpf_ktime_get_ns" ktimeGetNs []
  | bpfTracePrintk => entry "bpf_trace_printk" tracePrintk [ptrToMem, constSize]
  | bpfGetPrandomU32 => entry "bpf_get_prandom_u32" getPrandomU32 []
  | bpfGetSmpProcessorId | bpfGetRawSmpProcessorId => entry "bpf_get_smp_processor_id"
    getSmpProcessorId []
  | bpfSkbStoreBytes => entry "bpf_skb_store_bytes" skbStoreBytes [ptrToCtx, anything, ptrToMem,
    constSize, anything]
  | bpfL3CsumReplace => entry "bpf_l3_csum_replace" l3CsumReplace [ptrToCtx, anything, anything,
    anything, anything]
  | bpfL4CsumReplace => entry "bpf_l4_csum_replace" l4CsumReplace [ptrToCtx, anything, anything,
    anything, anything]
  | bpfTailCall => entry "bpf_tail_call" tailCall [ptrToCtx, constMapPtr, anything] [] .void
  | bpfCloneRedirect => entry "bpf_clone_redirect" cloneRedirect [ptrToCtx, anything, anything]
  | bpfGetCurrentPidTgid => entry "bpf_get_current_pid_tgid" getCurrentPidTgid []
  | bpfGetCurrentUidGid => entry "bpf_get_current_uid_gid" getCurrentUidGid []
  | bpfGetCurrentComm => entry "bpf_get_current_comm" getCurrentComm [ptrToUninitMem, constSize]
  | bpfGetCgroupClassid => entry "bpf_get_cgroup_classid" getCgroupClassid [ptrToCtx]
  | bpfGetCgroupClassidCurr => entry "bpf_get_cgroup_classid" getCgroupClassid []
  | bpfSkbVlanPush => entry "bpf_skb_vlan_push" skbVlanPush [ptrToCtx, anything, anything]
  | bpfSkbVlanPop => entry "bpf_skb_vlan_pop" skbVlanPop [ptrToCtx]
  | bpfSkbGetTunnelKey => entry "bpf_skb_get_tunnel_key" skbGetTunnelKey [ptrToCtx, ptrToUninitMem,
    constSize, anything]
  | bpfSkbSetTunnelKey => entry "bpf_skb_set_tunnel_key" skbSetTunnelKey [ptrToCtx, ptrToMem,
    constSize, anything]
  | bpfPerfEventRead => entry "bpf_perf_event_read" perfEventRead [constMapPtr, anything]
  | bpfRedirect | bpfXdpRedirect => entry "bpf_redirect" redirect [anything, anything]
  | bpfGetRouteRealm => entry "bpf_get_route_realm" getRouteRealm [ptrToCtx]
  | bpfPerfEventOutput | bpfEventOutputData | bpfSkbEventOutput | bpfXdpEventOutput
  | bpfPerfEventOutputProtoTp | bpfPerfEventOutputProtoRawTp => entry "bpf_perf_event_output"
    perfEventOutput [ptrToCtx, constMapPtr, anything, ptrToMem, constSizeOrZero]
  | bpfSkbLoadBytes | bpfFlowDissectorLoadBytes | skReuseportLoadBytes => entry "bpf_skb_load_bytes"
    skbLoadBytes [ptrToCtx, anything, ptrToUninitMem, constSize]
  | bpfGetStackid | bpfGetStackidProtoPe | bpfGetStackidProtoTp | bpfGetStackidProtoRawTp =>
    entry "bpf_get_stackid" getStackid [ptrToCtx, constMapPtr, anything]
  | bpfCsumDiff => entry "bpf_csum_diff" csumDiff [ptrToMemOrNull, constSizeOrZero, ptrToMemOrNull,
    constSizeOrZero, anything] [] .integer "" true
  | bpfSkbGetTunnelOpt => entry "bpf_skb_get_tunnel_opt" skbGetTunnelOpt [ptrToCtx, ptrToUninitMem,
    constSize]
  | bpfSkbSetTunnelOpt => entry "bpf_skb_set_tunnel_opt" skbSetTunnelOpt [ptrToCtx, ptrToMem,
    constSize]
  | bpfSkbChangeProto => entry "bpf_skb_change_proto" skbChangeProto [ptrToCtx, anything, anything]
  | bpfSkbChangeType => entry "bpf_skb_change_type" skbChangeType [ptrToCtx, anything]
  | bpfSkbUnderCgroup => entry "bpf_skb_under_cgroup" skbUnderCgroup [ptrToCtx, constMapPtr,
    anything]
  | bpfGetHashRecalc => entry "bpf_get_hash_recalc" getHashRecalc [ptrToCtx]
  | bpfGetCurrentTask => entry "bpf_get_current_task" getCurrentTask []
  | bpfProbeWriteUser => entry "bpf_probe_write_user" probeWriteUser [anything, ptrToMem, constSize]
  | bpfCurrentTaskUnderCgroup => entry "bpf_current_task_under_cgroup" currentTaskUnderCgroup
    [constMapPtr, anything]
  | bpfSkbChangeTail | skSkbChangeTail => entry "bpf_skb_change_tail" skbChangeTail [ptrToCtx,
    anything, anything]
  | bpfSkbPullData | skSkbPullData => entry "bpf_skb_pull_data" skbPullData [ptrToCtx, anything]
  | bpfCsumUpdate => entry "bpf_csum_update" csumUpdate [ptrToCtx, anything]
  | bpfSetHashInvalid => entry "bpf_set_hash_invalid" setHashInvalid [ptrToCtx]
  | bpfGetNumaNodeId => entry "bpf_get_numa_node_id" getNumaNodeId []
  | bpfSkbChangeHead | skSkbChangeHead => entry "bpf_skb_change_head" skbChangeHead [ptrToCtx,
    anything, anything]
  | bpfXdpAdjustHead => entry "bpf_xdp_adjust_head" xdpAdjustHead [ptrToCtx, anything]
  | bpfProbeReadCompatStr => entry "bpf_probe_read_str" probeReadStr [ptrToUninitMem,
    constSizeOrZero, anything]
  | bpfGetSocketCookie | bpfGetSocketCookieSockAddr | bpfGetSocketCookieSock
  | bpfGetSocketCookieSockOps => entry "bpf_get_socket_cookie" getSocketCookie [ptrToCtx]
  | bpfGetSocketPtrCookie => entry "bpf_get_socket_cookie" getSocketCookie [ptrToBtfIdSockCommon]
  | bpfGetSocketUid => entry "bpf_get_socket_uid" getSocketUid [ptrToCtx]
  | bpfSetHash => entry "bpf_set_hash" setHash [ptrToCtx, anything]
  | bpfSockOpsSetsockopt => entry "bpf_setsockopt" setsockopt [ptrToCtx, anything, anything,
    ptrToMem, constSize]
  | bpfSkSetsockopt => entry "bpf_setsockopt" setsockopt [ptrToBtfIdSockCommon, anything, anything,
    ptrToMem, constSize]
  | bpfSockAddrSetsockopt => entry "bpf_setsockopt" setsockopt [ptrToCtx, anything, anything,
    ptrToMem, constSize]
  | bpfSkbAdjustRoom | skSkbAdjustRoom => entry "bpf_skb_adjust_room" skbAdjustRoom [ptrToCtx,
    anything, anything, anything]
  | bpfXdpRedirectMap => entry "bpf_redirect_map" redirectMap [constMapPtr, anything, anything]
  | bpfSkRedirectMap => entry "bpf_sk_redirect_map" skRedirectMap [ptrToCtx, constMapPtr, anything,
    anything]
  | bpfSockMapUpdate => entry "bpf_sock_map_update" sockMapUpdate [ptrToCtx, constMapPtr,
    ptrToMapKey, anything]
  | bpfXdpAdjustMeta => entry "bpf_xdp_adjust_meta" xdpAdjustMeta [ptrToCtx, anything]
  | bpfPerfEventReadValue => entry "bpf_perf_event_read_value" perfEventReadValue [constMapPtr,
    anything, ptrToUninitMem, constSize]
  | bpfPerfProgReadValue => entry "bpf_perf_prog_read_value" perfProgReadValue [ptrToCtx,
    ptrToUninitMem, constSize]
  | bpfSockOpsGetsockopt => entry "bpf_getsockopt" getsockopt [ptrToCtx, anything, anything,
    ptrToUninitMem, constSize]
  | bpfSkGetsockopt => entry "bpf_getsockopt" getsockopt [ptrToBtfIdSockCommon, anything, anything,
    ptrToUninitMem, constSize]
  | bpfSockAddrGetsockopt => entry "bpf_getsockopt" getsockopt [ptrToCtx, anything, anything,
    ptrToUninitMem, constSize]
  | bpfOverrideReturn => entry "bpf_override_return" overrideReturn [ptrToCtx, anything]
  | bpfSockOpsCbFlagsSet => entry "bpf_sock_ops_cb_flags_set" sockOpsCbFlagsSet [ptrToCtx, anything]
  | bpfMsgRedirectMap => entry "bpf_msg_redirect_map" msgRedirectMap [ptrToCtx, constMapPtr,
    anything, anything]
  | bpfMsgApplyBytes => entry "bpf_msg_apply_bytes" msgApplyBytes [ptrToCtx, anything]
  | bpfMsgCorkBytes => entry "bpf_msg_cork_bytes" msgCorkBytes [ptrToCtx, anything]
  | bpfMsgPullData => entry "bpf_msg_pull_data" msgPullData [ptrToCtx, anything, anything, anything]
  | bpfBind => entry "bpf_bind" bind [ptrToCtx, ptrToMem, constSize]
  | bpfXdpAdjustTail => entry "bpf_xdp_adjust_tail" xdpAdjustTail [ptrToCtx, anything]
  | bpfSkbGetXfrmState => entry "bpf_skb_get_xfrm_state" skbGetXfrmState [ptrToCtx, anything,
    ptrToUninitMem, constSize, anything]
  | bpfGetStack => entry "bpf_get_stack" getStack [ptrToCtx, ptrToUninitMem, constSizeOrZero,
    anything]
  | bpfGetStackProtoRawTp => entry "bpf_get_stack" getStack [ptrToCtx, ptrToMem, constSizeOrZero,
    anything]
  | bpfGetStackProtoTp | bpfGetStackProtoPe => entry "bpf_get_stack" getStack [ptrToCtx,
    ptrToUninitMem, constSizeOrZero, anything]
  | bpfSkbLoadBytesRelative | skReuseportLoadBytesRelative => entry "bpf_skb_load_bytes_relative"
    skbLoadBytesRelative [ptrToCtx, anything, ptrToUninitMem, constSize, anything]
  | bpfSkbFibLookup | bpfXdpFibLookup => entry "bpf_fib_lookup" fibLookup [ptrToCtx, ptrToMem,
    constSize, anything]
  | bpfXdpGetBuffLen => entry "bpf_xdp_get_buff_len" xdpGetBuffLen [ptrToCtx]
  | bpfXdpLoadBytes => entry "bpf_xdp_load_bytes" xdpLoadBytes [ptrToCtx, anything, ptrToUninitMem,
    constSize]
  | bpfXdpStoreBytes => entry "bpf_xdp_store_bytes" xdpStoreBytes [ptrToCtx, anything, ptrToMem,
    constSize]
  | bpfSockHashUpdate => entry "bpf_sock_hash_update" sockHashUpdate [ptrToCtx, constMapPtr,
    ptrToMapKey, anything]
  | bpfMsgRedirectHash => entry "bpf_msg_redirect_hash" msgRedirectHash [ptrToCtx, constMapPtr,
    ptrToMapKey, anything]
  | bpfSkRedirectHash => entry "bpf_sk_redirect_hash" skRedirectHash [ptrToCtx, constMapPtr,
    ptrToMapKey, anything]
  | bpfLwtInPushEncap | bpfLwtXmitPushEncap => entry "bpf_lwt_push_encap" lwtPushEncap [ptrToCtx,
    anything, ptrToMem, constSize]
  | bpfLwtSeg6StoreBytes => entry "bpf_lwt_seg6_store_bytes" lwtSeg6StoreBytes [ptrToCtx, anything,
    ptrToMem]
  | bpfLwtSeg6AdjustSrh => entry "bpf_lwt_seg6_adjust_srh" lwtSeg6AdjustSrh [ptrToCtx, anything,
    anything]
  | bpfLwtSeg6Action => entry "bpf_lwt_seg6_action" lwtSeg6Action [ptrToCtx, anything, ptrToMem,
    constSize]
  | .rcRepeat => entry "bpf_rc_repeat" rcRepeat [ptrToCtx]
  | .rcKeydown => entry "bpf_rc_keydown" rcKeydown [ptrToCtx, anything, anything, anything]
  | bpfSkbCgroupId => entry "bpf_skb_cgroup_id" skbCgroupId [ptrToCtx]
  | bpfGetCurrentCgroupId => entry "bpf_get_current_cgroup_id" getCurrentCgroupId []
  | bpfGetLocalStorage => entry "bpf_get_local_storage" getLocalStorage [constMapPtr, anything] []
    .ptrToMapValue
  | .skSelectReuseport => entry "bpf_sk_select_reuseport" skSelectReuseport [ptrToCtx, constMapPtr,
    ptrToMapKey, anything]
  | bpfSkbAncestorCgroupId => entry "bpf_skb_ancestor_cgroup_id" skbAncestorCgroupId [ptrToCtx,
    anything]
  | bpfSkLookupTcp | bpfXdpSkLookupTcp => entry "bpf_sk_lookup_tcp" skLookupTcp [ptrToCtx, ptrToMem,
    constSize, anything, anything] [] .ptrToSocketOrNull "" true
  | bpfSockAddrSkLookupTcp => entry "bpf_sk_lookup_tcp" skLookupTcp [ptrToCtx, ptrToMem, constSize,
    anything, anything] [] .ptrToSocketOrNull
  | bpfSkLookupUdp | bpfXdpSkLookupUdp => entry "bpf_sk_lookup_udp" skLookupUdp [ptrToCtx, ptrToMem,
    constSize, anything, anything] [] .ptrToSocketOrNull "" true
  | bpfSockAddrSkLookupUdp => entry "bpf_sk_lookup_udp" skLookupUdp [ptrToCtx, ptrToMem, constSize,
    anything, anything] [] .ptrToSocketOrNull
  | bpfSkRelease => entry "bpf_sk_release" skRelease [ptrToBtfIdSockCommon]
  | bpfMapPushElem => entry "bpf_map_push_elem" mapPushElem [constMapPtr, ptrToMapValue, anything]
    [] .integer "" true
  | bpfMapPopElem => entry "bpf_map_pop_elem" mapPopElem [constMapPtr, ptrToUninitMapValue]
  | bpfMapPeekElem => entry "bpf_map_peek_elem" mapPeekElem [constMapPtr, ptrToUninitMapValue]
  | bpfMsgPushData => entry "bpf_msg_push_data" msgPushData [ptrToCtx, anything, anything, anything]
  | bpfMsgPopData => entry "bpf_msg_pop_data" msgPopData [ptrToCtx, anything, anything, anything]
  | .rcPointerRel => entry "bpf_rc_pointer_rel" rcPointerRel [ptrToCtx, anything, anything]
  | bpfSpinLock => entry "bpf_spin_lock" spinLock [ptrToSpinLock] [] .void
  | bpfSpinUnlock => entry "bpf_spin_unlock" spinUnlock [ptrToSpinLock] [] .void
  | bpfSkFullsock => entry "bpf_sk_fullsock" skFullsock [ptrToSockCommon] [] .ptrToSocketOrNull
  | bpfTcpSock => entry "bpf_tcp_sock" tcpSock [ptrToSockCommon] [] .ptrToTcpSockOrNull
  | bpfSkbEcnSetCe => entry "bpf_skb_ecn_set_ce" skbEcnSetCe [ptrToCtx]
  | bpfGetListenerSock => entry "bpf_get_listener_sock" getListenerSock [ptrToSockCommon] []
    .ptrToSocketOrNull
  | bpfSkcLookupTcp | bpfXdpSkcLookupTcp => entry "bpf_skc_lookup_tcp" skcLookupTcp [ptrToCtx,
    ptrToMem, constSize, anything, anything] [] .ptrToSockCommonOrNull "" true
  | bpfSockAddrSkcLookupTcp => entry "bpf_skc_lookup_tcp" skcLookupTcp [ptrToCtx, ptrToMem,
    constSize, anything, anything] [] .ptrToSockCommonOrNull
  | bpfTcpCheckSyncookie => entry "bpf_tcp_check_syncookie" tcpCheckSyncookie [ptrToBtfIdSockCommon,
    ptrToMem, constSize, ptrToMem, constSize] [] .integer "" true
  | bpfSysctlGetName => entry "bpf_sysctl_get_name" sysctlGetName [ptrToCtx, ptrToMem, constSize,
    anything]
  | bpfSysctlGetCurrentValue => entry "bpf_sysctl_get_current_value" sysctlGetCurrentValue
    [ptrToCtx, ptrToUninitMem, constSize]
  | bpfSysctlGetNewValue => entry "bpf_sysctl_get_new_value" sysctlGetNewValue [ptrToCtx,
    ptrToUninitMem, constSize]
  | bpfSysctlSetNewValue => entry "bpf_sysctl_set_new_value" sysctlSetNewValue [ptrToCtx, ptrToMem,
    constSize]
  | bpfStrtol => entry "bpf_strtol" strtol [ptrToMem, constSize, anything, ptrToLong]
  | bpfStrtoul => entry "bpf_strtoul" strtoul [ptrToMem, constSize, anything, ptrToLong]
  | bpfSkStorageGet => entry "bpf_sk_storage_get" skStorageGet [constMapPtr, ptrToBtfIdSockCommon,
    ptrToMapValueOrNull, anything] [] .ptrToMapValueOrNull
  | bpfSkStorageGetCgSock => entry "bpf_sk_storage_get" skStorageGet [constMapPtr, ptrToCtx,
    ptrToMapValueOrNull, anything] [] .ptrToMapValueOrNull
  | bpfSkStorageGetTracing => entry "bpf_sk_storage_get" skStorageGet [constMapPtr, ptrToBtfId,
    ptrToMapValueOrNull, anything] ["struct sock_common"] .ptrToMapValueOrNull
  | bpfSkStorageDelete => entry "bpf_sk_storage_delete" skStorageDelete [constMapPtr,
    ptrToBtfIdSockCommon]
  | bpfSkStorageDeleteTracing => entry "bpf_sk_storage_delete" skStorageDelete [constMapPtr,
    ptrToBtfId] ["struct sock_common"]
  | bpfSendSignal => entry "bpf_send_signal" sendSignal [anything]
  | bpfTcpGenSyncookie => entry "bpf_tcp_gen_syncookie" tcpGenSyncookie [ptrToBtfIdSockCommon,
    ptrToMem, constSize, ptrToMem, constSize] [] .integer "" true
  | bpfSkbOutput => entry "bpf_skb_output" skbOutput [ptrToBtfId, constMapPtr, anything, ptrToMem,
    constSizeOrZero] ["struct sk_buff"]
  | bpfProbeReadUser => entry "bpf_probe_read_user" probeReadUser [ptrToUninitMem, constSizeOrZero,
    anything]
  | bpfProbeReadKernel => entry "bpf_probe_read_kernel" probeReadKernel [ptrToUninitMem,
    constSizeOrZero, anything]
  | bpfProbeReadUserStr => entry "bpf_probe_read_user_str" probeReadUserStr [ptrToUninitMem,
    constSizeOrZero, anything]
  | bpfProbeReadKernelStr => entry "bpf_probe_read_kernel_str" probeReadKernelStr [ptrToUninitMem,
    constSizeOrZero, anything]
  | bpfTcpSendAck => entry "bpf_tcp_send_ack" tcpSendAck [ptrToBtfId, anything]
  | bpfSendSignalThread => entry "bpf_send_signal_thread" sendSignalThread [anything]
  | bpfJiffies64 => entry "bpf_jiffies64" jiffies64 []
  | bpfReadBranchRecords => entry "bpf_read_branch_records" readBranchRecords [ptrToCtx,
    ptrToMemOrNull, constSizeOrZero, anything]
  | bpfGetNsCurrentPidTgid => entry "bpf_get_ns_current_pid_tgid" getNsCurrentPidTgid [anything,
    anything, ptrToUninitMem, constSize]
  | bpfXdpOutput => entry "bpf_xdp_output" xdpOutput [ptrToBtfId, constMapPtr, anything, ptrToMem,
    constSizeOrZero] ["struct xdp_buff"]
  | bpfGetNetnsCookieSockAddr | bpfGetNetnsCookieSock | bpfGetNetnsCookieSockOps
  | bpfGetNetnsCookieSkMsg | bpfGetNetnsCookieSockopt => entry "bpf_get_netns_cookie" getNetnsCookie
    [ptrToCtxOrNull]
  | bpfGetCurrentAncestorCgroupId => entry "bpf_get_current_ancestor_cgroup_id"
    getCurrentAncestorCgroupId [anything]
  | bpfSkAssign => entry "bpf_sk_assign" skAssign [ptrToCtx, ptrToBtfIdSockCommon, anything]
  | bpfSkLookupAssign => entry "bpf_sk_assign" skAssign [ptrToCtx, ptrToSocketOrNull, anything]
  | bpfKtimeGetBootNs => entry "bpf_ktime_get_boot_ns" ktimeGetBootNs []
  | bpfSeqPrintf => entry "bpf_seq_printf" seqPrintf [ptrToBtfId, ptrToMem, constSize,
    ptrToMemOrNull, constSizeOrZero] ["struct seq_file"]
  | bpfSeqWrite => entry "bpf_seq_write" seqWrite [ptrToBtfId, ptrToMem, constSizeOrZero]
    ["struct seq_file"]
  | bpfSkCgroupId => entry "bpf_sk_cgroup_id" skCgroupId [ptrToBtfIdSockCommon]
  | bpfSkAncestorCgroupId => entry "bpf_sk_ancestor_cgroup_id" skAncestorCgroupId
    [ptrToBtfIdSockCommon, anything]
  | bpfRingbufOutput => entry "bpf_ringbuf_output" ringbufOutput [constMapPtr, ptrToMem,
    constSizeOrZero, anything]
  | bpfRingbufReserve => entry "bpf_ringbuf_reserve" ringbufReserve [constMapPtr,
    constAllocSizeOrZero, anything] [] .ptrToAllocMemOrNull
  | bpfRingbufSubmit => entry "bpf_ringbuf_submit" ringbufSubmit [ptrToAllocMem, anything] [] .void
  | bpfRingbufDiscard => entry "bpf_ringbuf_discard" ringbufDiscard [ptrToAllocMem, anything] []
    .void
  | bpfRingbufQuery => entry "bpf_ringbuf_query" ringbufQuery [constMapPtr, anything]
  | bpfCsumLevel => entry "bpf_csum_level" csumLevel [ptrToCtx, anything]
  | bpfSkcToTcp6Sock => entry "bpf_skc_to_tcp6_sock" skcToTcp6Sock [ptrToBtfIdSockCommon] []
    .ptrToBtfIdOrNull "struct tcp6_sock"
  | bpfSkcToTcpSock => entry "bpf_skc_to_tcp_sock" skcToTcpSock [ptrToBtfIdSockCommon] []
    .ptrToBtfIdOrNull "struct tcp_sock"
  | bpfSkcToTcpTimewaitSock => entry "bpf_skc_to_tcp_timewait_sock" skcToTcpTimewaitSock
    [ptrToBtfIdSockCommon] [] .ptrToBtfIdOrNull "struct tcp_timewait_sock"
  | bpfSkcToTcpRequestSock => entry "bpf_skc_to_tcp_request_sock" skcToTcpRequestSock
    [ptrToBtfIdSockCommon] [] .ptrToBtfIdOrNull "struct tcp_request_sock"
  | bpfSkcToUdp6Sock => entry "bpf_skc_to_udp6_sock" skcToUdp6Sock [ptrToBtfIdSockCommon] []
    .ptrToBtfIdOrNull "struct udp6_sock"
  | bpfGetTaskStack => entry "bpf_get_task_stack" getTaskStack [ptrToBtfId, ptrToUninitMem,
    constSizeOrZero, anything] ["struct task_struct"]
  | bpfSockOpsLoadHdrOpt => entry "bpf_load_hdr_opt" loadHdrOpt [ptrToCtx, ptrToMem, constSize,
    anything]
  | bpfSockOpsStoreHdrOpt => entry "bpf_store_hdr_opt" storeHdrOpt [ptrToCtx, ptrToMem, constSize,
    anything]
  | bpfSockOpsReserveHdrOpt => entry "bpf_reserve_hdr_opt" reserveHdrOpt [ptrToCtx, anything,
    anything]
  | bpfInodeStorageGet => entry "bpf_inode_storage_get" inodeStorageGet [constMapPtr, ptrToBtfId,
    ptrToMapValueOrNull, anything] ["struct inode"] .ptrToMapValueOrNull
  | bpfInodeStorageDelete => entry "bpf_inode_storage_delete" inodeStorageDelete [constMapPtr,
    ptrToBtfId] ["struct inode"]
  | bpfDPath => entry "bpf_d_path" dPath [ptrToBtfId, ptrToMem, constSizeOrZero] ["struct path"]
  | bpfCopyFromUser => entry "bpf_copy_from_user" copyFromUser [ptrToUninitMem, constSizeOrZero,
    anything]
  | bpfSnprintfBtf => entry "bpf_snprintf_btf" snprintfBtf [ptrToMem, constSize, ptrToMem,
    constSize, anything]
  | bpfSeqPrintfBtf => entry "bpf_seq_printf_btf" seqPrintfBtf [ptrToBtfId, ptrToMem,
    constSizeOrZero, anything] ["struct seq_file"]
  | bpfSkbCgroupClassid => entry "bpf_skb_cgroup_classid" skbCgroupClassid [ptrToCtx]
  | bpfRedirectNeigh => entry "bpf_redirect_neigh" redirectNeigh [anything, ptrToMemOrNull,
    constSizeOrZero, anything]
  | bpfPerCpuPtr => entry "bpf_per_cpu_ptr" perCpuPtr [ptrToPercpuBtfId, anything] []
    .ptrToMemOrBtfIdOrNull
  | bpfThisCpuPtr => entry "bpf_this_cpu_ptr" thisCpuPtr [ptrToPercpuBtfId] [] .ptrToMemOrBtfId
  | bpfRedirectPeer => entry "bpf_redirect_peer" redirectPeer [anything, anything]
  | bpfTaskStorageGet => entry "bpf_task_storage_get" taskStorageGet [constMapPtr, ptrToBtfId,
    ptrToMapValueOrNull, anything] ["struct task_struct"] .ptrToMapValueOrNull
  | bpfTaskStorageDelete => entry "bpf_task_storage_delete" taskStorageDelete [constMapPtr,
    ptrToBtfId] ["struct task_struct"]
  | bpfGetCurrentTaskBtf => entry "bpf_get_current_task_btf" getCurrentTaskBtf [] [] .ptrToBtfId
    "struct task_struct"
  | bpfBprmOptsSet => entry "bpf_bprm_opts_set" bprmOptsSet [ptrToBtfId, anything]
  | bpfKtimeGetCoarseNs => entry "bpf_ktime_get_coarse_ns" ktimeGetCoarseNs []
  | bpfImaInodeHash => entry "bpf_ima_inode_hash" imaInodeHash [ptrToBtfId, ptrToUninitMem,
    constSize]
  | bpfSockFromFile => entry "bpf_sock_from_file" sockFromFile [ptrToBtfId] ["struct file"]
    .ptrToBtfIdOrNull "struct socket"
  | bpfSkbCheckMtu | bpfXdpCheckMtu => entry "bpf_check_mtu" checkMtu [ptrToCtx, anything, ptrToInt,
    anything, anything]
  | bpfForEachMapElem => entry "bpf_for_each_map_elem" forEachMapElem [constMapPtr, ptrToFunc,
    ptrToStackOrNull, anything]
  | bpfSnprintf => entry "bpf_snprintf" snprintf [ptrToMemOrNull, constSizeOrZero, ptrToConstStr,
    ptrToMemOrNull, constSizeOrZero]
  | bpfSysBpf => entry "bpf_sys_bpf" sysBpf [anything, ptrToMem, constSize]
  | bpfBtfFindByNameKind => entry "bpf_btf_find_by_name_kind" btfFindByNameKind [ptrToMem,
    constSize, anything, anything]
  | bpfSysClose => entry "bpf_sys_close" sysClose [anything]
  | bpfKallsymsLookupName => entry "bpf_kallsyms_lookup_name" kallsymsLookupName [ptrToMem,
    constSizeOrZero, anything, ptrToFixedSizeMem]
  | bpfTimerInit => entry "bpf_timer_init" timerInit [ptrToTimer, constMapPtr, anything]
  | bpfTimerSetCallback => entry "bpf_timer_set_callback" timerSetCallback [ptrToTimer, ptrToFunc]
  | bpfTimerStart => entry "bpf_timer_start" timerStart [ptrToTimer, anything, anything]
  | bpfTimerCancel => entry "bpf_timer_cancel" timerCancel [ptrToTimer]
  | bpfGetFuncIpProtoKprobe | bpfGetFuncIpProtoTracing => entry "bpf_get_func_ip" getFuncIp
    [ptrToCtx]
  | bpfGetAttachCookieProtoTrace | bpfGetAttachCookieProtoPe => entry "bpf_get_attach_cookie"
    getAttachCookie [ptrToCtx]
  | bpfTaskPtRegs => entry "bpf_task_pt_regs" taskPtRegs [ptrToBtfId] ["struct task_struct"]
    .ptrToBtfId "struct pt_regs"
  | bpfCgrpStorageGet => entry "bpf_cgrp_storage_get" cgrpStorageGet [constMapPtr, ptrToBtfId,
    ptrToMapValueOrNull, anything] ["struct cgroup"] .ptrToMapValueOrNull
  | bpfCgrpStorageDelete => entry "bpf_cgrp_storage_delete" cgrpStorageDelete [constMapPtr,
    ptrToBtfId] ["struct cgroup"]
  | bpfImaFileHash => entry "bpf_ima_file_hash" imaFileHash [ptrToBtfId, ptrToUninitMem, constSize]
    ["struct file"]
  | bpfGetAttachCookieProtoLsm => entry "bpf_get_attach_cookie" getAttachCookie [ptrToCtx]
  | bpfUnlockedSkSetsockopt => entry "bpf_setsockopt" setsockopt [ptrToBtfIdSockCommon, anything,
    anything, ptrToMem, constSize]
  | bpfUnlockedSkGetsockopt => entry "bpf_getsockopt" getsockopt [ptrToBtfIdSockCommon, anything,
    anything, ptrToUninitMem, constSize]
  | bpfGetRetval => entry "bpf_get_retval" getRetval []
  | bpfSetRetval => entry "bpf_set_retval" setRetval [anything]
  | bpfKptrXchg => entry "bpf_kptr_xchg" kptrXchg [ptrToMem, ptrToBtfIdOrNull] [] .ptrToBtfIdOrNull
  | bpfLoop => entry "bpf_loop" loop [anything, ptrToFunc, ptrToStackOrNull, anything]
  | bpfUserRingbufDrain => entry "bpf_user_ringbuf_drain" userRingbufDrain [constMapPtr, ptrToFunc,
    ptrToStackOrNull, anything]
  | bpfStrncmp => entry "bpf_strncmp" strncmp [ptrToMem, constSize, ptrToConstStr]
  | bpfKtimeGetTaiNs => entry "bpf_ktime_get_tai_ns" ktimeGetTaiNs []

end Brf.HelperCalls
