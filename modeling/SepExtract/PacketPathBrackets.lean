import SepExtract.EventPrograms

/- The instrumented functions of the packet path as programs that emit trace events: every
   branch, loop exit and conditionally compiled part is a path of its own, and a call stands
   for any well-nested word. On every path of dhdsdio_readframes, dhdsdio_sendfromq,
   process_backlog, __do_softirq and the two tasklet actions the services and loops opened
   are closed in order, each by its own address or loop. -/
namespace TraceBrackets
open EventPrograms

abbrev Addr := Nat

inductive Loop where
  | readframes | sendfromq | processBacklog | softirqRestart | softirqVector
  | taskletAction | taskletHiAction | ksoftirqd | ksoftirqdPending
  deriving DecidableEq, Repr

inductive Plain where
  | pktextract | queuecondition | pktqueue | srvqueueEnqueue | hirqstart | hirqstop
  deriving DecidableEq, Repr

/-- Exits of the thread loops. A path passes such a point, nothing is traced there. -/
inductive Point where
  | shouldStop | offline
  deriving DecidableEq, Repr

inductive Event where
  | srventry (address : Addr)
  | dequeue (address : Addr)
  | srvexit (address : Addr)
  | loopstart (own : Loop)
  | looprestart (own : Loop)
  | loopstop (own : Loop)
  | plain (kind : Plain)
  | passed (point : Point)
  deriving DecidableEq, Repr

inductive Bracket where
  | service (address : Addr)
  | loop (own : Loop)
  deriving DecidableEq, Repr

/-- The brackets open after an event, innermost first; `none` once an event did not fit. -/
def step : Option (List Bracket) → Event → Option (List Bracket)
  | none, _ => none
  | some st, .srventry a => some (.service a :: st)
  | some st, .dequeue a => some (.service a :: st)
  | some (.service b :: st), .srvexit a => if a = b then some st else none
  | some _, .srvexit _ => none
  | some st, .loopstart l => some (.loop l :: st)
  | some (.loop k :: st), .looprestart l => if l = k then some (.loop k :: st) else none
  | some _, .looprestart _ => none
  | some (.loop k :: st), .loopstop l => if l = k then some st else none
  | some _, .loopstop _ => none
  | some st, .plain _ => some st
  | some st, .passed _ => some st

def WellNested (w : List Event) : Prop := w.foldl step (some []) = some []

instance (w : List Event) : Decidable (WellNested w) := by
  unfold WellNested
  infer_instance

abbrev Program := Cmd Event Addr

theorem steps_failed (w : List Event) : w.foldl step none = none := by
  induction w with
  | nil => rfl
  | cons e w ih => exact ih

theorem step_frame {st st' : List Bracket} {e : Event} (fits : step (some st) e = some st')
    (base : List Bracket) : step (some (st ++ base)) e = some (st' ++ base) := by
  unfold step at fits ⊢
  split at fits <;> grind

theorem steps_frame {w : List Event} {st st' : List Bracket}
    (fit : w.foldl step (some st) = some st') (base : List Bracket) :
    w.foldl step (some (st ++ base)) = some (st' ++ base) := by
  induction w generalizing st with
  | nil => simpa using congrArg (Option.map (· ++ base)) fit
  | cons e w ih =>
    rw [List.foldl_cons] at fit ⊢
    cases first : step (some st) e with
    | none =>
      rw [first, steps_failed] at fit
      cases fit
    | some middle =>
      rw [step_frame first base]
      exact ih (first ▸ fit)

theorem nested_neutral (s : Option (List Bracket)) (w : List Event) (nested : WellNested w) :
    w.foldl step s = s := by
  cases s with
  | none => exact steps_failed w
  | some st => simpa using steps_frame nested st

theorem prefix_fits {s : Option (List Bracket)} {u w : List Event} (begins : u <+: w)
    (fits : w.foldl step s ≠ none) : u.foldl step s ≠ none := by
  obtain ⟨rest, rfl⟩ := begins
  intro failed
  rw [List.foldl_append, failed, steps_failed] at fits
  exact fits rfl

def Balances (st : List Bracket) : Outcome → Option (List Bracket) → Prop
  | .cut, s => s ≠ none
  | .normal, s | .returned, s => s = some st
  | .broke, _ | .continued, _ => False

theorem Balances.fits {st : List Bracket} {o : Outcome} {s : Option (List Bracket)}
    (ending : Balances st o s) : s ≠ none := by
  cases o <;> simp_all [Balances]

theorem Balances.ends {st : List Bracket} {o : Outcome} {s : Option (List Bracket)}
    (ending : Balances st o s) (finished : o ≠ .cut) : s = some st := by
  cases o <;> simp_all [Balances]

def rejects (body : List Program) : Program := maybe (block (body ++ [.cont]))

def loopTest : Program := .choose .skip .brk

def dhdsdioSendfromq : Program := block [
  .emit (.plain .queuecondition),
  .emit (.loopstart .sendfromq),
  .loop (block [
    loopTest,                                   -- cnt < maxframes && DATAOK(bus)
    .call,                                      -- dhd_os_sdlock_txq
    .emit (.looprestart .sendfromq),
    maybe (block [.call, .brk]),                -- pktq_mdeq returned NULL
    .emit (.plain .pktqueue),
    .call,                                      -- dhd_os_sdunlock_txq
    .call,                                      -- dhdsdio_txpkt
    maybe (block [.call, maybe .brk])]),        -- poll mode: bcmsdh_regfail
  .emit (.loopstop .sendfromq),
  maybe .call,                                  -- dhd_txflowcontrol
  .ret]

def readSingle : Program := block [
  .call,                                        -- dhd_os_sdlock_rxq
  .choose
    (.choose                                    -- PKTGET failed
      (block [.call, rejects [.call, .call]])   -- SPI_BUS: dhd_bcmsdh_recv_buf
      (block [.call, .cont]))
    (block [.call, rejects [.call, .call, .call]]),
  .call,                                        -- dhd_os_sdunlock_rxq
  rejects [.call, maybe .call, .call],          -- !(len|check)
  rejects [.call, maybe .call, .call, .call],   -- ~(len^check)
  rejects [.call, maybe .call, .call],          -- len < SDPCM_HDRLEN
  rejects [.call, maybe .call, .call, .call],   -- len_consistent
  maybe (.choose                                -- SDPCM_CONTROL_CHANNEL
    (block [.call, maybe (block [.call, .call, .call]), .cont])
    (block [.call, .call, maybe .call, .call, .cont])),
  rejects [],                                   -- SPI_BUS && !usebufpool
  rejects [.call, maybe .call, .call, .call]]   -- bad doff

def readHeaderAndData : Program := block [
  maybe .brk,                                   -- SPI_BUS
  .call,                                        -- dhd_bcmsdh_recv_buf
  rejects [.call],                              -- sdret < 0
  maybe .brk,                                   -- !(len|check): *finished = TRUE
  rejects [.call],                              -- ~(len^check)
  rejects [],                                   -- len < SDPCM_HDRLEN
  rejects [.call],                              -- bad doff
  rejects [.call],                              -- SDPCM_CONTROL_CHANNEL: dhdsdio_read_control
  rejects [.call],                              -- rdlen + firstread > MAX_RX_DATASZ
  .call,                                        -- dhd_os_sdlock_rxq
  rejects [.call, .call],                       -- PKTGET failed
  .call,                                        -- dhd_os_sdunlock_rxq
  .call,                                        -- dhd_bcmsdh_recv_buf
  rejects [.call, .call, .call, .call]]         -- sdret < 0

def deliver : Program := block [
  .emit (.plain .pktqueue),
  rejects [maybe .call],                        -- SDPCM_GLOM_CHANNEL
  rejects [.call],                              -- SDTEST: SDPCM_TEST_CHANNEL
  rejects [.call, .call, .call],                -- PKTLEN(osh, pkt) == 0
  .call,                                        -- dhd_prot_hdrpull
  rejects [.call, .call, .call],
  .call, .call, .call]                          -- dhd_rx_frame, unlocked

def dhdsdioReadframes (self : Addr) : Program := block [
  .emit (.srventry self),
  .emit (.plain .pktextract),
  .emit (.loopstart .readframes),
  .loop (block [
    loopTest,                                   -- !rxskip && rxleft && busstate
    .emit (.plain .pktextract),
    .emit (.looprestart .readframes),
    -- DHDTHREAD without CONFIG_BCMDHD_DISABLE_EARLY_TX
    maybe (block [.call, .emit (.plain .queuecondition), maybe .call]),
    rejects [.call],                            -- glom || glomd: dhdsdio_rxglom
    .choose readSingle readHeaderAndData,
    deliver]),
  .emit (.loopstop .readframes),
  .emit (.srvexit self),
  .ret]

def processBacklog : Program := block [
  maybe (block [.call, .call]),                 -- CONFIG_RPS
  .call,                                        -- local_irq_disable
  .loop (block [
    loopTest,                                   -- work < quota
    .emit (.loopstart .processBacklog),
    .loop (block [
      .emit (.looprestart .processBacklog),
      .choose (.emit (.plain .pktqueue)) .brk,  -- __skb_dequeue
      .call, .call, .call,                      -- __netif_receive_skb, interrupts on
      maybe (block [.call, .emit (.loopstop .processBacklog), .ret])]),
    .emit (.loopstop .processBacklog),
    .call, .call]),                             -- rps_lock, rps_unlock
  .call,                                        -- local_irq_enable
  .ret]

/-- The handler is read before and after its call; a call leaves the pointer unchanged. -/
def dispatch (handler : Addr) : List Program :=
  [.emit (.dequeue handler), .call, .emit (.srvexit handler)]

def doSoftirq : Program := block [
  .call,                                        -- account_system_vtime, __local_bh_disable
  .emit (.loopstart .softirqRestart),
  .loop (block [                                -- restart:
    .emit (.looprestart .softirqRestart),
    .call,                                      -- local_irq_enable
    .emit (.loopstart .softirqVector),
    .loop (block [
      .emit (.looprestart .softirqVector),
      maybe (.pick fun action => block (.call :: dispatch action ++ [.call])),
      loopTest]),                               -- while (pending)
    .emit (.loopstop .softirqVector),
    .call,                                      -- local_irq_disable
    loopTest]),                                 -- pending && --max_restart
  .emit (.loopstop .softirqRestart),
  maybe .call,                                  -- wakeup_softirqd
  .call]                                        -- account_system_vtime, __local_bh_enable

def taskletLoop (own : Loop) : Program := block [
  .call, .call,                                 -- local_irq_disable, local_irq_enable
  .emit (.loopstart own),
  .loop (block [
    loopTest,                                   -- list
    .emit (.looprestart own),
    maybe (block [                              -- tasklet_trylock
      maybe (.pick fun func => block (dispatch func ++ [.call, .cont])),
      .call]),                                  -- tasklet_unlock
    .call,                                      -- local_irq_disable
    .emit (.plain .srvqueueEnqueue),
    .call, .call]),                             -- __raise_softirq_irqoff, local_irq_enable
  .emit (.loopstop own)]

def taskletAction : Program := taskletLoop .taskletAction

def taskletHiAction : Program := taskletLoop .taskletHiAction

theorem sendfromq_balances (st : List Bracket) : holds step dhdsdioSendfromq (Balances st) (some st) := by
  simp [dhdsdioSendfromq, loopTest, step, Balances, Outcome.leaving]

theorem readframes_balances (self : Addr) (st : List Bracket) :
    holds step (dhdsdioReadframes self) (Balances st) (some st) := by
  simp [dhdsdioReadframes, readSingle, readHeaderAndData, deliver, rejects, loopTest, step, Balances,
    Outcome.leaving]

theorem backlog_balances (st : List Bracket) : holds step processBacklog (Balances st) (some st) := by
  simp [processBacklog, loopTest, step, Balances, Outcome.leaving]

theorem softirq_balances (st : List Bracket) : holds step doSoftirq (Balances st) (some st) := by
  simp [doSoftirq, dispatch, loopTest, step, Balances, Outcome.leaving]

theorem tasklet_balances (own : Loop) (st : List Bracket) :
    holds step (taskletLoop own) (Balances st) (some st) := by
  simp [taskletLoop, dispatch, loopTest, step, Balances, Outcome.leaving]

def packetPath (readframes : Addr) : List Program :=
  [dhdsdioReadframes readframes, dhdsdioSendfromq, processBacklog, doSoftirq, taskletAction,
    taskletHiAction]

theorem packet_path_balances (readframes : Addr) (st : List Bracket) :
    ∀ program ∈ packetPath readframes, holds step program (Balances st) (some st) := by
  intro program member
  simp only [packetPath, List.mem_cons, List.not_mem_nil, or_false] at member
  rcases member with rfl | rfl | rfl | rfl | rfl | rfl
  · exact readframes_balances readframes st
  · exact sendfromq_balances st
  · exact backlog_balances st
  · exact softirq_balances st
  · exact tasklet_balances .taskletAction st
  · exact tasklet_balances .taskletHiAction st

/-- On every path, with interrupts anywhere, the word emitted up to the return is well nested,
    and up to any moment before it no event has failed to fit the brackets open there. -/
theorem packet_path_well_nested (readframes : Addr) (program : Program)
    (member : program ∈ packetPath readframes) (w : List Event) (o : Outcome)
    (path : Emits WellNested program w o) :
    (o ≠ .cut → WellNested w) ∧ ∀ u, u <+: w → u.foldl step (some []) ≠ none := by
  have ending := emits_post nested_neutral path (packet_path_balances readframes [] program member)
  exact ⟨fun finished => ending.ends finished, fun u begins => prefix_fits begins ending.fits⟩

theorem packet_path_well_nested_softirq : ∃ w, Emits WellNested doSoftirq w .normal ∧
    w.length = 10 ∧ WellNested w := by
  have passed : Exec WellNested loopTest [] .broke := .right .brk
  have silent : Exec WellNested (.call : Program) [] .normal := .call rfl
  have handler : Exec WellNested (block (.call :: dispatch 9 ++ [.call])) _ .normal :=
    .seq silent (.seq (.emit _) (.seq silent (.seq (.emit _) (.seq silent .skip))))
  have vector : Exec WellNested (block [.emit (.looprestart .softirqVector),
      maybe (.pick fun action => block (.call :: dispatch action ++ [.call])), loopTest]) _ .broke :=
    .seq (.emit _) (.seq (.left (.pick 9 handler)) (.stop passed (by decide)))
  have path : Exec WellNested doSoftirq _ .normal :=
    .seq silent (.seq (.emit _) (.seq (.leave (.seq (.emit _) (.seq silent (.seq (.emit _)
      (.seq (.leave vector rfl) (.seq (.emit _) (.seq silent (.stop passed (by decide)))))))) rfl)
      (.seq (.emit _) (.seq (.right .skip) (.seq silent .skip)))))
  have interrupt : WellNested [.srventry 3, .srvexit 3] := by decide
  have word : Emits WellNested doSoftirq _ .normal :=
    ⟨_, path, .event _ (.event _ (.event _ (.event _ (.event _
      (.interrupt interrupt (.event _ (.event _ (.event _ .nil))))))))⟩
  exact ⟨_, word, rfl, (packet_path_well_nested 1 doSoftirq (by simp [packetPath]) _ _ word).1 (by decide)⟩

end TraceBrackets
